import Myunix.Lib.Regions
import Myunix.Vmm.Paging

/-!
# Blocks for devices, and runs of the block allocator

`dma_malloc` takes blocks whose addresses are also free in the kernel directory, and maps them there at the same
address. Its search is a second scan of the block map: it advances a word index and an 8-bit bit index, and looks at
each block and its page.

The allocators of `pmm.c` and `dma_malloc` share one block map. `PmmRun` is a run of them, in any order and with
releases of live regions; `pmm_runs_conserve_blocks` says that such a run never hands a block out twice and never
loses one.
-/

namespace Myunix.Vmm

open Lib Pmm

/-! ## `dma_malloc` -/

/-- `map_direct_kernel`. -/
def mapDirectKernel (vm : Vm) (v : Nat) : Kernel Vm := do
  kassert (v % 1024 = 0)
  let page ← getPage vm (getTable vm v .kernel) v
  kassert (page = 0#32 ∨ page &&& ~~~ 0x3FF#32 = BitVec.ofNat 32 v)
  let vm ← mapPage vm (getTable vm v .kernel) v v (pagePresent ||| pageReadwrite)
  invalidatePage v
  return vm

/-- The `while` loop of `vmm_find_dma_region`: extend a run of `len` free blocks at `start` by up to `rest` more. The
assertion of `pmm_test_block` ends it before `start + len` could wrap. -/
def dmaLength (vm : Vm) (start : Nat) : Nat → Nat → Kernel Nat
  | 0, len => .ok len
  | rest + 1, len => do
    let vAddr := (start + len) * 4096 % 0x100000000
    if ← pmmTestBlock vm.pmm (start + len) then return len
    else if (← getPage vm (getTable vm vAddr .kernel) vAddr) ≠ 0#32 then return len
    else dmaLength vm start rest (len + 1)

/-- The bit loop of `vmm_find_dma_region`; `j` is a `uint8_t`. It returns the start of a region, or the word index it
has moved on to. A round that goes on has tested block `i * 32 + j`, which is thus below `block_map_size`, and
`i * 32 + j` grows in each: `block_map_size` rounds are enough. -/
def dmaBits (vm : Vm) (size : Nat) : Nat → Nat → Nat → Kernel (Nat ⊕ Nat)
  | 0, i, _ => .ok (.inr i)
  | rounds + 1, i, j =>
    if j < 32 then do
      let start := i * 32 + j
      let len ← dmaLength vm start size 0
      if len = size then return .inl start
      else dmaBits vm size rounds (i + len / 32) ((j + len + 1) % 256)
    else .ok (.inr i)

/-- The word loop of `vmm_find_dma_region`; each round moves on by at least one word. -/
def dmaWords (vm : Vm) (size : Nat) : Nat → Nat → Kernel Nat
  | 0, _ => .ok 0
  | rounds + 1, i =>
    if i < vm.pmm.size / 32 then
      if vm.pmm.words i = 0xFFFFFFFF then dmaWords vm size rounds (i + 1)
      else do
        match ← dmaBits vm size (vm.pmm.size + 1) i 0 with
        | .inl start => return start
        | .inr i => dmaWords vm size rounds (i + 1)
    else .ok 0

/-- `vmm_find_dma_region`. -/
def vmmFindDmaRegion (vm : Vm) (size : Nat) : Kernel Nat := do
  kassert (size ≠ 0)
  dmaWords vm size (vm.pmm.size / 32) 0

/-- The number of blocks `dma_malloc` takes for `m` bytes. -/
def dmaBlocks (m : Word) : Nat := (4095 + m.toNat) % 0x100000000 / 4096

/-- One round of the loop of `dma_malloc`: mark block `block`, map it at its own address, clear it. -/
def dmaTake (block : Nat) (vm : Vm) : Kernel Vm := do
  let pmm ← pmmSetBlock vm.pmm block
  let vm ← mapDirectKernel { vm with pmm := pmm } (block * 4096 % 0x100000000)
  let frame ← kernelFrame vm (block * 4096 % 0x100000000)
  return { vm with frames := Function.update vm.frames frame fun _ => 0#8 }

/-- `dma_malloc`. -/
def dmaMalloc (vm : Vm) (m : Word) : Kernel (Nat × Vm) := do
  kassert (m ≠ 0#32)
  let v ← vmmFindDmaRegion vm (dmaBlocks m)
  kassert (v ≠ 0)
  let vm ← forRange (fun i vm => dmaTake (v + i) vm) 0 (dmaBlocks m) vm
  return (v * 4096 % 0x100000000, vm)

/-! ## What the search for a DMA region returns -/

section Dma

variable {vm vm' : Vm} {size start : Nat}

/-- The blocks counted by the `while` loop are free and below `block_map_size`. -/
theorem dmaLength_free {rest len r : Nat} (h : dmaLength vm start rest len = .ok r) :
    ∀ k, len ≤ k → k < r → start + k < vm.pmm.size ∧ vm.pmm.used (start + k) = false := by
  induction rest generalizing len with
  | zero =>
    simp only [dmaLength, Except.ok.injEq] at h
    subst h
    exact fun k h1 h2 => by omega
  | succ rest ih =>
    simp only [dmaLength, bind_eq_ok] at h
    obtain ⟨u, hu, h⟩ := h
    obtain ⟨hlt, rfl⟩ := pmmTestBlock_ok hu
    split at h
    · simp only [pure_eq_ok] at h
      subst h
      exact fun k h1 h2 => by omega
    · rename_i hfree
      simp only [bind_eq_ok] at h
      obtain ⟨page, -, h⟩ := h
      split at h
      · simp only [pure_eq_ok] at h
        subst h
        exact fun k h1 h2 => by omega
      · intro k hk hkr
        rcases Nat.eq_or_lt_of_le hk with rfl | hk
        · exact ⟨hlt, by simpa using hfree⟩
        · exact ih h k hk hkr

theorem dmaBits_free {rounds i j : Nat} (h : dmaBits vm size rounds i j = .ok (.inl start)) :
    ∀ k < size, start + k < vm.pmm.size ∧ vm.pmm.used (start + k) = false := by
  induction rounds generalizing i j with
  | zero => simp [dmaBits] at h
  | succ rounds ih =>
    unfold dmaBits at h
    split at h
    · simp only [bind_eq_ok] at h
      obtain ⟨len, hlen, h⟩ := h
      split at h
      · rename_i heq
        simp only [pure_eq_ok, Sum.inl.injEq] at h
        subst h heq
        exact fun k hk => dmaLength_free hlen k (Nat.zero_le k) hk
      · exact ih h
    · cases h

theorem dmaWords_free {rounds i : Nat} (h : dmaWords vm size rounds i = .ok start) (h0 : start ≠ 0) :
    ∀ k < size, start + k < vm.pmm.size ∧ vm.pmm.used (start + k) = false := by
  induction rounds generalizing i with
  | zero =>
    simp only [dmaWords, Except.ok.injEq] at h
    exact absurd h.symm h0
  | succ rounds ih =>
    unfold dmaWords at h
    split at h
    · split at h
      · exact ih h
      · simp only [bind_eq_ok] at h
        obtain ⟨r, hr, h⟩ := h
        cases r with
        | inl s =>
          simp only [pure_eq_ok] at h
          subst h
          exact dmaBits_free hr
        | inr i' => exact ih h
    · simp only [Except.ok.injEq] at h
      exact absurd h.symm h0

/-- One round of `dma_malloc` marks its block. -/
theorem dmaTake_ok {b : Nat} (h : dmaTake b vm = .ok vm') : b < vm.pmm.size ∧ vm'.pmm.size = vm.pmm.size ∧
    ∀ c, vm'.pmm.used c = (vm.pmm.used c || decide (c = b)) := by
  simp only [dmaTake, mapDirectKernel, bind_eq_ok, pure_eq_ok] at h
  obtain ⟨pmm, hset, vm₁, ⟨-, -, page, -, -, -, vm₂, hmap, -, -, rfl⟩, frame, -, rfl⟩ := h
  obtain ⟨-, -, rfl⟩ := mapPage_ok hmap
  exact pmmSetBlock_ok hset

/-- **`dma_malloc`** takes blocks that were free. -/
theorem dmaMalloc_ok {m : Word} {addr : Nat} (h : dmaMalloc vm m = .ok (addr, vm')) :
    ∃ b, addr = b * 4096 ∧ (∀ c, InRange b (dmaBlocks m) c → c < vm.pmm.size ∧ vm.pmm.used c = false) ∧
      vm'.pmm.size = vm.pmm.size ∧ ∀ c, vm'.pmm.used c = (vm.pmm.used c || decide (InRange b (dmaBlocks m) c)) := by
  simp only [dmaMalloc, vmmFindDmaRegion, bind_eq_ok, assert_eq_ok, pure_eq_ok, Prod.mk.injEq] at h
  obtain ⟨-, -, b, ⟨-, hne, hfind⟩, -, hb, vm₁, htake, rfl, rfl⟩ := h
  have hfree := dmaWords_free hfind hb
  have hlt := (hfree 0 (Nat.pos_of_ne_zero hne)).1
  have hle := vm.pmm.size_le
  have hinv := forRange_inv
    (P := fun i u => u.pmm.size = vm.pmm.size ∧ ∀ c, u.pmm.used c = (vm.pmm.used c || decide (InRange b i c))) ?_ htake ?_
  · rw [Nat.zero_add] at hinv
    refine ⟨b, Nat.mod_eq_of_lt (by omega), fun c hc => ?_, hinv.1, hinv.2⟩
    have := hfree (c - b) (by omega)
    rwa [show b + (c - b) = c by omega] at this
  · rintro i u u' _ _ ⟨hs, hu⟩ hstep
    obtain ⟨-, hs', hu'⟩ := dmaTake_ok hstep
    refine ⟨hs'.trans hs, fun c => ?_⟩
    simp only [hu', hu, inRange_succ, Bool.decide_or, Bool.or_assoc]
  · exact ⟨rfl, fun c => by rw [decide_eq_false inRange_zero, Bool.or_false]⟩

end Dma

/-! ## Runs -/

/-- The set of used blocks. -/
def usedBlocks (p : BlockMap) : Finset Nat := (Finset.range p.size).filter fun b => p.used b = true

/-- A call of the allocators. A release names the region it gives back. -/
inductive PmmCall
  | alloc (size : Nat)
  | free (r : Region)
  | dma (m : Word)

/-- One call, with the region it has handed out. -/
def pmmStep (vm : Vm) : PmmCall → Kernel (Option Region × Vm)
  | .alloc size => do
    let (addr, pmm) ← pmmAllocBlocks vm.pmm size
    return (if addr = 0 then none else some ⟨addr / 4096, size⟩, { vm with pmm := pmm })
  | .free r => do
    let pmm ← pmmFreeBlocks vm.pmm (r.start * 4096 % 0x100000000) r.size
    return (none, { vm with pmm := pmm })
  | .dma m => do
    let (addr, vm) ← dmaMalloc vm m
    return (some ⟨addr / 4096, dmaBlocks m⟩, vm)

/-- The live regions after a call. -/
def liveAfter (live : List Region) : PmmCall → Option Region → List Region
  | .free r, _ => live.erase r
  | _, none => live
  | _, some r => r :: live

/-- Only live regions are given back. -/
def PmmCall.Legal (live : List Region) : PmmCall → Prop
  | .free r => r ∈ live
  | _ => True

/-- What a run of legal calls that all return can reach from `vm₀`: a machine, and the regions live in it. -/
inductive PmmRun (vm₀ : Vm) : Vm → List Region → Prop
  | start : PmmRun vm₀ vm₀ []
  | step {vm vm' : Vm} {live : List Region} {call : PmmCall} {r : Option Region} :
    PmmRun vm₀ vm live → call.Legal live → pmmStep vm call = .ok (r, vm') → PmmRun vm₀ vm' (liveAfter live call r)

section Runs

variable {vm vm' vm₀ : Vm} {live : List Region} {call : PmmCall} {r : Option Region}

theorem mem_usedBlocks {p : BlockMap} {b : Nat} : b ∈ usedBlocks p ↔ b < p.size ∧ p.used b = true := by
  simp [usedBlocks]

theorem mem_cells_iff {b size c : Nat} : c ∈ (Region.mk b size).cells ↔ InRange b size c := Region.mem_cells

/-- Marking a free range below the size adds its cells to the used blocks. -/
theorem usedBlocks_mark {p q : BlockMap} {b size : Nat} (hs : q.size = p.size)
    (hfree : ∀ c, InRange b size c → c < p.size ∧ p.used c = false)
    (hu : ∀ c, q.used c = (p.used c || decide (InRange b size c))) (c : Nat) :
    c ∈ usedBlocks q ↔ c ∈ usedBlocks p ∨ c ∈ (Region.mk b size).cells := by
  rw [mem_usedBlocks, mem_usedBlocks, mem_cells_iff, hs, hu, Bool.or_eq_true, decide_eq_true_iff]
  constructor
  · rintro ⟨hlt, hc | hc⟩
    · exact Or.inl ⟨hlt, hc⟩
    · exact Or.inr hc
  · rintro (⟨hlt, hc⟩ | hc)
    · exact ⟨hlt, Or.inl hc⟩
    · exact ⟨(hfree c hc).1, Or.inr hc⟩

/-- A call that hands a region out: its blocks were free, are below the size, and are used now. -/
theorem pmmStep_some {s : Region} (h : pmmStep vm call = .ok (some s, vm')) :
    (∀ r, call ≠ .free r) ∧ vm'.pmm.size = vm.pmm.size ∧
      (∀ b ∈ s.cells, b < vm.pmm.size ∧ vm.pmm.used b = false) ∧
      ∀ c, c ∈ usedBlocks vm'.pmm ↔ c ∈ usedBlocks vm.pmm ∨ c ∈ s.cells := by
  cases call with
  | alloc size =>
    simp only [pmmStep, bind_eq_ok, pure_eq_ok, Prod.exists, Prod.mk.injEq] at h
    obtain ⟨addr, pmm, halloc, hs, rfl⟩ := h
    split at hs
    · cases hs
    · rename_i haddr
      cases hs
      rcases pmmAllocBlocks_ok halloc with ⟨h0, -⟩ | ⟨b, -, rfl, hfree, -, hsz, hu⟩
      · exact absurd h0 haddr
      · rw [show b * 4096 / 4096 = b by omega]
        exact ⟨by simp, hsz, fun c hc => hfree c (mem_cells_iff.1 hc), usedBlocks_mark hsz hfree hu⟩
  | free r =>
    simp only [pmmStep, bind_eq_ok, pure_eq_ok, Prod.mk.injEq, reduceCtorEq, false_and, and_false, exists_false] at h
  | dma m =>
    simp only [pmmStep, bind_eq_ok, pure_eq_ok, Prod.exists, Prod.mk.injEq, Option.some.injEq] at h
    obtain ⟨addr, vm₁, hdma, rfl, rfl⟩ := h
    obtain ⟨b, rfl, hfree, hsz, hu⟩ := dmaMalloc_ok hdma
    rw [show b * 4096 / 4096 = b by omega]
    exact ⟨by simp, hsz, fun c hc => hfree c (mem_cells_iff.1 hc), usedBlocks_mark hsz hfree hu⟩

/-- A call that hands nothing out is a search that found nothing, or a release. -/
theorem pmmStep_none (h : pmmStep vm call = .ok (none, vm')) :
    ((∀ r, call ≠ .free r) ∧ vm'.pmm = vm.pmm) ∨
      ∃ s, call = .free s ∧ vm'.pmm.size = vm.pmm.size ∧
        ∀ c, vm'.pmm.used c = (vm.pmm.used c && !decide (InRange (s.start * 4096 % 0x100000000 / 4096) s.size c)) := by
  cases call with
  | alloc size =>
    simp only [pmmStep, bind_eq_ok, pure_eq_ok, Prod.exists, Prod.mk.injEq] at h
    obtain ⟨addr, pmm, halloc, hs, rfl⟩ := h
    split at hs
    · rename_i haddr
      rcases pmmAllocBlocks_ok halloc with ⟨-, rfl⟩ | ⟨b, hb, rfl, -⟩
      · exact Or.inl ⟨by simp, rfl⟩
      · omega
    · cases hs
  | free s =>
    simp only [pmmStep, bind_eq_ok, pure_eq_ok, Prod.mk.injEq, true_and] at h
    obtain ⟨pmm, hfree, rfl⟩ := h
    exact Or.inr ⟨s, rfl, pmmFreeBlocks_ok hfree⟩
  | dma m =>
    simp only [pmmStep, bind_eq_ok, pure_eq_ok, Prod.mk.injEq, reduceCtorEq, false_and, and_false, exists_false] at h

/-- **One step** keeps the allocator invariant. -/
theorem pmmStep_inv {base : Finset Nat} {bound : Nat} (hsize : vm.pmm.size = bound)
    (hinv : AllocInv base bound (usedBlocks vm.pmm) live) (hl : call.Legal live)
    (h : pmmStep vm call = .ok (r, vm')) :
    vm'.pmm.size = bound ∧ AllocInv base bound (usedBlocks vm'.pmm) (liveAfter live call r) := by
  subst hsize
  cases r with
  | some s =>
    obtain ⟨hnf, hsz, hfree, hu⟩ := pmmStep_some h
    have hafter : liveAfter live call (some s) = s :: live := by
      cases call with
      | free r => exact absurd rfl (hnf r)
      | alloc _ => rfl
      | dma _ => rfl
    rw [hafter]
    refine ⟨hsz, hinv.alloc (fun b hb hc => ?_) (fun b hb => (hfree b hb).1) hu⟩
    rw [mem_usedBlocks, (hfree b hb).2] at hc
    exact absurd hc.2 (by decide)
  | none =>
    rcases pmmStep_none h with ⟨hnf, heq⟩ | ⟨s, rfl, hsz, hu⟩
    · have hafter : liveAfter live call none = live := by
        cases call with
        | free r => exact absurd rfl (hnf r)
        | alloc _ => rfl
        | dma _ => rfl
      rw [hafter, heq]
      exact ⟨rfl, hinv⟩
    · refine ⟨hsz, hinv.free hl fun c => ?_⟩
      -- the region lies below the size, so its address does not wrap
      have hstart : ∀ d, InRange (s.start * 4096 % 0x100000000 / 4096) s.size d ↔ d ∈ s.cells := by
        intro d
        rw [Region.mem_cells]
        rcases Nat.eq_zero_or_pos s.size with h0 | hpos
        · rw [h0]; unfold InRange; omega
        · have hb := hinv.below s hl s.start (Region.mem_cells.2 ⟨Nat.le_refl _, by omega⟩)
          have hle := vm.pmm.size_le
          rw [Nat.mod_eq_of_lt (by omega), show s.start * 4096 / 4096 = s.start by omega]
      rw [mem_usedBlocks, mem_usedBlocks, hsz, hu, Bool.and_eq_true, Bool.not_eq_true', decide_eq_false_iff_not, hstart]
      tauto

/-- **A run** keeps the allocator invariant. -/
theorem PmmRun.inv (h : PmmRun vm₀ vm live) :
    vm.pmm.size = vm₀.pmm.size ∧ AllocInv (usedBlocks vm₀.pmm) vm₀.pmm.size (usedBlocks vm.pmm) live := by
  induction h with
  | start => exact ⟨rfl, AllocInv.init _ _⟩
  | step _ hl hstep ih => exact pmmStep_inv ih.1 ih.2 hl hstep

/-- `pmm_count_free_blocks` is the number of blocks that are not used. -/
theorem pmmCountFreeBlocks_eq (p : BlockMap) :
    pmmCountFreeBlocks p = .ok (Finset.range p.size \ usedBlocks p).card := by
  have hset : Finset.range p.size \ usedBlocks p = (Finset.range p.size).filter fun b => p.used b = false := by
    ext b
    simp only [Finset.mem_sdiff, Finset.mem_range, mem_usedBlocks, Finset.mem_filter, not_and, Bool.not_eq_true]
    tauto
  unfold pmmCountFreeBlocks
  rw [countFreeFrom_eq (by omega), hset, Nat.zero_add, ← Nat.count_eq_card_filter_range]
  simp only [Nat.zero_add]

end Runs

/-- **Block conservation.** After every run of the allocators from a map in which block 0 is used: live regions are
pairwise disjoint, below `block_map_size` and without block 0; the used blocks are those used at the start and those of
the live regions; the free blocks that `pmm_count_free_blocks` counts and the live blocks add up to the free blocks
at the start; and what the next call hands out was free. -/
theorem pmm_runs_conserve_blocks (vm₀ : Vm) (hzero : vm₀.pmm.used 0 = true) (vm : Vm) (live : List Region)
    (hrun : PmmRun vm₀ vm live) :
    live.Pairwise (fun r s => Disjoint r.cells s.cells) ∧
      (∀ r ∈ live, ∀ b ∈ r.cells, b < vm.pmm.size ∧ b ≠ 0) ∧
      usedBlocks vm.pmm = usedBlocks vm₀.pmm ∪ cellsOf live ∧
      (∃ free free₀, pmmCountFreeBlocks vm.pmm = .ok free ∧ pmmCountFreeBlocks vm₀.pmm = .ok free₀ ∧
        free + totalSize live = free₀) ∧
      ∀ call r vm', call.Legal live → pmmStep vm call = .ok (some r, vm') → ∀ b ∈ r.cells, vm.pmm.used b = false := by
  obtain ⟨hsize, hinv⟩ := hrun.inv
  refine ⟨hinv.apart, fun r hr b hb => ⟨hsize ▸ hinv.below r hr b hb, ?_⟩, hinv.used_eq, ?_, ?_⟩
  · rintro rfl
    have hmem : 0 ∈ usedBlocks vm₀.pmm := mem_usedBlocks.2 ⟨hinv.below r hr 0 hb, hzero⟩
    exact Finset.disjoint_left.1 (hinv.base_apart r hr) hb hmem
  · refine ⟨_, _, pmmCountFreeBlocks_eq _, pmmCountFreeBlocks_eq _, ?_⟩
    rw [hsize]
    exact hinv.count
  · intro call r vm' _ hstep b hb
    exact ((pmmStep_some hstep).2.2.1 b hb).2

/-- A machine with 64 blocks of which block 0 is used, and an empty kernel directory. -/
def smallVm : Vm where
  pmm := ⟨fun i => if i = 0 then 1#32 else 0#32, 64, by decide⟩
  dirs _ := ⟨0, fun _ => 0#32, fun _ => some ⟨0, fun _ => 0#32⟩, 0, -1⟩
  nextDir := 0
  frames _ _ := 0#8

/-- Two blocks, then one block for a device, then the two blocks back. -/
theorem pmm_runs_conserve_blocks_small :
    ∃ vm, PmmRun smallVm vm [⟨3, 1⟩] ∧ usedBlocks vm.pmm = usedBlocks smallVm.pmm ∪ cellsOf [⟨3, 1⟩] := by
  obtain ⟨vm₁, h1, vm₂, h2, vm₃, h3⟩ : ∃ vm₁, pmmStep smallVm (.alloc 2) = .ok (some ⟨1, 2⟩, vm₁) ∧
      ∃ vm₂, pmmStep vm₁ (.dma 1#32) = .ok (some ⟨3, 1⟩, vm₂) ∧ ∃ vm₃, pmmStep vm₂ (.free ⟨1, 2⟩) = .ok (none, vm₃) :=
    ⟨_, rfl, _, rfl, _, rfl⟩
  have hrun₁ : PmmRun smallVm vm₁ [⟨1, 2⟩] := PmmRun.step PmmRun.start (by exact trivial) h1
  have hrun₂ : PmmRun smallVm vm₂ [⟨3, 1⟩, ⟨1, 2⟩] := PmmRun.step hrun₁ (by exact trivial) h2
  have hrun : PmmRun smallVm vm₃ [⟨3, 1⟩] :=
    PmmRun.step hrun₂ (by exact List.mem_cons_of_mem _ List.mem_cons_self) h3
  exact ⟨vm₃, hrun, (pmm_runs_conserve_blocks smallVm rfl vm₃ _ hrun).2.2.1⟩

end Myunix.Vmm
