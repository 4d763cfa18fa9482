import Myunix.CString
import Myunix.Pmm.Blocks

/-!
# The memory of the block map (`pmm.c`, `kmain.c`)

`kmain` puts the block map behind the kernel and its modules, at the page `real_end`. `pmm_init` fills it with
`memset`, and a loop of `kmain` marks the blocks in which it lies as used. The map is counted in three units: it has one
bit for each block, `memset` is given the number of blocks as a number of bytes, and the loop takes the number of words
for the number of bytes.

* `memset_ok` says which bytes are written, `pmmInitAt_blockMap` that the map then is that of `Pmm.pmmInit`.
* `reserve_covers_iff` says for which sizes the loop covers the map.
* `block_map_safe_iff` puts the two together; `block_map_handed_out` is a machine of 256 MiB.
-/

namespace Myunix.Boot

open Lib Pmm

/-! ## The code -/

/-- Physical memory before paging is on. -/
abbrev Memory := Word → Byte

/-- `memset`. -/
def memset (mem : Memory) (dest : Word) (c : Byte) (len : Nat) : Kernel Memory := do
  kassert (dest ≠ 0#32)
  kassert (len ≠ 0)
  forRange (fun i mem => .ok (Function.update mem (dest + BitVec.ofNat 32 i) c)) 0 len mem

/-- `block_map_size`. -/
def blockMapSize (memSize : Word) : Nat := memSize.toNat / 4096

theorem blockMapSize_le (memSize : Word) : blockMapSize memSize ≤ 0xFFFFF := by
  unfold blockMapSize
  omega

/-- `pmm_init(mem_map, mem_size)`, for what it does to memory. -/
def pmmInitAt (mem : Memory) (memMap memSize : Word) : Kernel Memory := memset mem memMap 0xFF#8 (blockMapSize memSize)

/-- The 32-bit word at `a`. -/
def wordAt (mem : Memory) (a : Word) : Word := mem (a + 3#32) ++ mem (a + 2#32) ++ mem (a + 1#32) ++ mem a

/-- `block_map` in memory. -/
def blockMapAt (mem : Memory) (memMap memSize : Word) : BlockMap where
  words i := wordAt mem (memMap + BitVec.ofNat 32 (4 * i))
  size := blockMapSize memSize
  size_le := blockMapSize_le memSize

/-- `real_end = (real_end+0xFFF) & 0xFFFFF000`. -/
def roundEnd (realEnd : Word) : Word := (realEnd + 0xFFF#32) &&& 0xFFFFF000#32

/-- The number of rounds of `for (i = 0; i < block_map_size / 32; i += BLOCK_SIZE)`. -/
def reserveRounds (size : Nat) : Nat := (size / 32 + 4095) / 4096

/-- The loop of `kmain` that marks the block map as used. -/
def reserveBlockMap (blockMap : Word) (p : BlockMap) : Kernel BlockMap :=
  forRange (fun k p => pmmSetBlock p ((blockMap + BitVec.ofNat 32 (k * 4096)).toNat / 4096)) 0 (reserveRounds p.size) p

/-! ## What the code is for -/

/-- The number of words of a map of `size` blocks. -/
def mapWords (size : Nat) : Nat := (size + 31) / 32

/-- Address `a` is a byte of the words of the map. -/
def InMap (blockMap : Word) (size : Nat) (a : Word) : Prop := (a - blockMap).toNat < 4 * mapWords size

/-- Every block of memory that overlaps the words of the map is marked used. -/
def MapReserved (blockMap : Word) (q : BlockMap) : Prop :=
  ∀ a, InMap blockMap q.size a → a.toNat / 4096 < q.size → q.used (a.toNat / 4096) = true

/-- `pmm_init` returns, writes only the words of the map and leaves every block marked used, and the loop of `kmain`,
whatever was freed in between, ends with the map reserved. -/
def BlockMapSafe (memSize realEnd : Word) : Prop :=
  ∀ mem, ∃ mem', pmmInitAt mem realEnd memSize = .ok mem' ∧
    (∀ a, ¬ InMap realEnd (blockMapSize memSize) a → mem' a = mem a) ∧
    (∀ b < blockMapSize memSize, (blockMapAt mem' realEnd memSize).used b = true) ∧
    ∀ p q : BlockMap, p.size = blockMapSize memSize → reserveBlockMap realEnd p = .ok q → MapReserved realEnd q

/-! ## `pmm_init` -/

section Init

variable {mem mem' : Memory} {dest memMap memSize : Word} {c : Byte} {len : Nat}

/-- The distance of an address from the start of a range. -/
theorem eq_add_iff {a d : Word} {i : Nat} (hi : i < 0x100000000) : a = d + BitVec.ofNat 32 i ↔ (a - d).toNat = i := by
  constructor
  · rintro rfl
    rw [BitVec.add_comm, BitVec.add_sub_cancel, BitVec.toNat_ofNat]
    exact Nat.mod_eq_of_lt hi
  · rintro rfl
    rw [BitVec.ofNat_toNat, BitVec.setWidth_eq, BitVec.add_comm, BitVec.sub_add_cancel]

/-- **`memset`** writes the `len` bytes from `dest` on. -/
theorem memset_ok (hdest : dest ≠ 0#32) (hlen : len ≠ 0) (hlt : len ≤ 0x100000000) :
    memset mem dest c len = .ok fun a => if (a - dest).toNat < len then c else mem a := by
  have hstep : ∀ i m, i < len → m = (fun a => if (a - dest).toNat < i then c else mem a) →
      ∃ m' : Memory, (.ok (Function.update m (dest + BitVec.ofNat 32 i) c) : Kernel Memory) = .ok m' ∧
        m' = fun a => if (a - dest).toNat < i + 1 then c else mem a := by
    rintro i m hi rfl
    refine ⟨_, rfl, ?_⟩
    funext a
    have hiff := @eq_add_iff a dest i (by omega)
    by_cases ha : a = dest + BitVec.ofNat 32 i
    · have hat := hiff.1 ha
      rw [ha, Function.update_self, ← ha, if_pos (by omega)]
    · have hat : (a - dest).toNat ≠ i := fun h => ha (hiff.2 h)
      rw [Function.update_of_ne ha]
      exact if_congr (by omega) rfl rfl
  obtain ⟨m, hm, rfl⟩ := forRange_zero_ok hstep (funext fun a => (if_neg (Nat.not_lt_zero _)).symm)
  unfold memset
  rw [assert_bind hdest, assert_bind hlen]
  exact hm

/-- `pmm_init` returns for a map of at least one block that is not at address 0. -/
theorem pmmInitAt_ok (hmap : memMap ≠ 0#32) (hsize : blockMapSize memSize ≠ 0) : pmmInitAt mem memMap memSize =
    .ok fun a => if (a - memMap).toNat < blockMapSize memSize then 0xFF#8 else mem a := by
  have hle := blockMapSize_le memSize
  exact memset_ok hmap hsize (by omega)

theorem pmmInitAt_eq_ok (h : pmmInitAt mem memMap memSize = .ok mem') :
    memMap ≠ 0#32 ∧ blockMapSize memSize ≠ 0 := by
  simp only [pmmInitAt, memset, bind_eq_ok, assert_eq_ok] at h
  obtain ⟨-, h1, -, h2, -⟩ := h
  exact ⟨h1, h2⟩

/-- The bits of a word in memory. -/
theorem getLsbD_wordAt {a : Word} {j : Nat} (hj : j < 32) :
    (wordAt mem a).getLsbD j = (mem (a + BitVec.ofNat 32 (j / 8))).getLsbD (j % 8) := by
  unfold wordAt
  rw [BitVec.getLsbD_append, BitVec.getLsbD_append, BitVec.getLsbD_append]
  by_cases h0 : j < 8
  · have hb : j / 8 = 0 ∧ j % 8 = j := by omega
    rw [if_pos h0, hb.1, hb.2, BitVec.add_zero]
  · rw [if_neg h0]
    by_cases h1 : j - 8 < 8
    · have hb : j / 8 = 1 ∧ j % 8 = j - 8 := by omega
      rw [if_pos h1, hb.1, hb.2]
    · rw [if_neg h1]
      by_cases h2 : j - 8 - 8 < 8
      · have hb : j / 8 = 2 ∧ j % 8 = j - 8 - 8 := by omega
        rw [if_pos h2, hb.1, hb.2]
      · have hb : j / 8 = 3 ∧ j % 8 = j - 8 - 8 - 8 := by omega
        rw [if_neg h2, hb.1, hb.2]

/-- The bits of the words of the map in memory. -/
theorem getLsbD_blockMapAt {i j : Nat} (hj : j < 32) : ((blockMapAt mem memMap memSize).words i).getLsbD j =
    (mem (memMap + BitVec.ofNat 32 (4 * i + j / 8))).getLsbD (j % 8) := by
  apply (getLsbD_wordAt hj).trans
  rw [BitVec.add_assoc, ← BitVec.ofNat_add]

/-- The map in memory is the one that `Pmm.pmmInit` makes of the words that were there. -/
theorem pmmInitAt_blockMap (h : pmmInitAt mem memMap memSize = .ok mem') :
    ∃ p, pmmInit (blockMapAt mem memMap memSize).words memSize = .ok p ∧ p.size = blockMapSize memSize ∧
      ∀ i < 0x40000000, (blockMapAt mem' memMap memSize).words i = p.words i := by
  obtain ⟨hmap, hsize⟩ := pmmInitAt_eq_ok h
  rw [pmmInitAt_ok hmap hsize, Except.ok.injEq] at h
  subst h
  have hle := blockMapSize_le memSize
  refine ⟨_, (assert_bind (p := blockMapSize memSize ≠ 0) hsize), rfl, fun i hi => ?_⟩
  apply BitVec.eq_of_getLsbD_eq
  intro j hj
  have hdist := (eq_add_iff (show 4 * i + j / 8 < 0x100000000 by omega)).1
    (rfl : memMap + BitVec.ofNat 32 (4 * i + j / 8) = _)
  have hshift : (BitVec.allOnes 32 >>> (32 - 8 * min 4 (blockMapSize memSize - 4 * i))).getLsbD j =
      decide (4 * i + j / 8 < blockMapSize memSize) := by
    rw [BitVec.getLsbD_ushiftRight, BitVec.getLsbD_allOnes, decide_eq_decide]
    omega
  refine Eq.trans ?_ (BitVec.getLsbD_or).symm
  rw [getLsbD_blockMapAt hj, getLsbD_blockMapAt hj, hdist]
  refine Eq.trans ?_ (congrArg _ hshift.symm)
  by_cases hin : 4 * i + j / 8 < blockMapSize memSize
  · have hones : ∀ k < 8, (0xFF#8).getLsbD k = true := by decide
    rw [if_pos hin, decide_eq_true hin, Bool.or_true, hones _ (Nat.mod_lt j (by omega))]
  · rw [if_neg hin, decide_eq_false hin, Bool.or_false]

/-- **`pmm_init`** leaves every block marked used: eight times as many bits are set as there are blocks. -/
theorem pmmInit_used {words : Nat → Word} {p : BlockMap} (h : pmmInit words memSize = .ok p) :
    p.size = blockMapSize memSize ∧ ∀ b < p.size, p.used b = true := by
  simp only [pmmInit, bind_eq_ok, assert_eq_ok, pure_eq_ok] at h
  obtain ⟨-, -, rfl⟩ := h
  refine ⟨rfl, fun b hb => ?_⟩
  apply (BitVec.getLsbD_or).trans
  rw [BitVec.getLsbD_ushiftRight, BitVec.getLsbD_allOnes, Bool.or_eq_true, decide_eq_true_eq]
  simp only at hb
  omega

theorem pmmInitAt_used (h : pmmInitAt mem memMap memSize = .ok mem') :
    ∀ b < blockMapSize memSize, (blockMapAt mem' memMap memSize).used b = true := by
  intro b hb
  obtain ⟨p, hp, hsize, hwords⟩ := pmmInitAt_blockMap h
  have hle := blockMapSize_le memSize
  unfold BlockMap.used
  rw [hwords _ (by omega)]
  exact (pmmInit_used hp).2 b (by omega)

/-- `pmm_init` writes only the words of the map exactly when there are at most four blocks. -/
theorem pmmInitAt_only_map_iff (hmap : memMap ≠ 0#32) (hsize : blockMapSize memSize ≠ 0) :
    (∀ mem mem', pmmInitAt mem memMap memSize = .ok mem' →
      ∀ a, ¬ InMap memMap (blockMapSize memSize) a → mem' a = mem a) ↔ blockMapSize memSize ≤ 4 := by
  have hle := blockMapSize_le memSize
  constructor
  · intro h
    by_contra hgt
    -- the byte behind the words of a map of zeroes
    have hdist := (eq_add_iff (show 4 * mapWords (blockMapSize memSize) < 0x100000000 by unfold mapWords; omega)).1
      (rfl : memMap + BitVec.ofNat 32 (4 * mapWords (blockMapSize memSize)) = _)
    have hbyte := h (fun _ => 0#8) _ (pmmInitAt_ok hmap hsize)
      (memMap + BitVec.ofNat 32 (4 * mapWords (blockMapSize memSize))) (by unfold InMap; omega)
    have hin : 4 * mapWords (blockMapSize memSize) < blockMapSize memSize := by unfold mapWords; omega
    simp only [hdist, if_pos hin] at hbyte
    exact absurd hbyte (by decide)
  · rintro hle mem mem' h a ha
    rw [pmmInitAt_ok hmap hsize, Except.ok.injEq] at h
    subst h
    apply if_neg
    unfold InMap mapWords at ha
    omega

end Init

/-! ## The reservation -/

section Reserve

variable {p q : BlockMap} {blockMap : Word} {r : Nat}

/-- `(block_map + i) / BLOCK_SIZE` for a map at page `r`. -/
theorem block_of_offset (hr : blockMap.toNat = r * 4096) (i : Nat) :
    (blockMap + BitVec.ofNat 32 i).toNat / 4096 = (r + i / 4096) % 0x100000 := by
  rw [BitVec.toNat_add, BitVec.toNat_ofNat, hr]
  omega

/-- The loop marks the `reserveRounds` blocks from page `r` on, which are below the end of memory. -/
theorem reserveBlockMap_ok (hr : blockMap.toNat = r * 4096) (h : reserveBlockMap blockMap p = .ok q) :
    q.size = p.size ∧ (reserveRounds p.size = 0 ∨ r + reserveRounds p.size ≤ p.size) ∧
      ∀ c, q.used c = (p.used c || decide (InRange r (reserveRounds p.size) c)) := by
  have hlt := blockMap.isLt
  have hle := p.size_le
  have hinv := forRange_inv (P := fun k u => u.size = p.size ∧ (k = 0 ∨ r + k ≤ p.size) ∧
    ∀ c, u.used c = (p.used c || decide (InRange r k c))) ?_ h ?_
  · rwa [Nat.zero_add] at hinv
  · rintro k u u' - - ⟨hs, hk, hu⟩ hstep
    have hblock : (blockMap + BitVec.ofNat 32 (k * 4096)).toNat / 4096 = r + k := by
      rw [block_of_offset hr]
      omega
    rw [hblock] at hstep
    obtain ⟨hb, hs', hu'⟩ := pmmSetBlock_ok hstep
    refine ⟨hs'.trans hs, Or.inr (by omega), fun c => ?_⟩
    simp only [hu', hu, inRange_succ, Bool.decide_or, Bool.or_assoc]
  · exact ⟨rfl, Or.inl rfl, fun c => by rw [decide_eq_false inRange_zero, Bool.or_false]⟩

theorem pmmSetBlock_total {b : Nat} (hb : b < p.size) : ∃ q, pmmSetBlock p b = .ok q ∧ q.size = p.size :=
  ⟨_, assert_bind hb, rfl⟩

/-- The loop returns when these blocks are blocks of the map. -/
theorem reserveBlockMap_total (hr : blockMap.toNat = r * 4096)
    (hle : reserveRounds p.size = 0 ∨ r + reserveRounds p.size ≤ p.size) : ∃ q, reserveBlockMap blockMap p = .ok q := by
  have hsz := p.size_le
  have hloop : ∃ q, reserveBlockMap blockMap p = .ok q ∧ q.size = p.size := by
    refine forRange_zero_ok (P := fun _ (u : BlockMap) => u.size = p.size) ?_ rfl
    intro k u hk hu
    obtain ⟨u', hu', hs⟩ := @pmmSetBlock_total u ((blockMap + BitVec.ofNat 32 (k * 4096)).toNat / 4096)
      (by rw [block_of_offset hr]; omega)
    exact ⟨u', hu', hs.trans hu⟩
  obtain ⟨q, hq, -⟩ := hloop
  exact ⟨q, hq⟩

/-- A map of `size` blocks of which none is used. -/
def freeMap (size : Nat) (h : size ≤ 0xFFFFF) : BlockMap := ⟨fun _ => 0#32, size, h⟩

/-- **The reservation.** Whatever was freed before, the loop ends with the map reserved exactly when it makes as many
rounds as the map has pages, or the pages it leaves out lie behind the end of memory, or it stops at a block there. -/
theorem reserve_covers_iff {size : Nat} (hr : blockMap.toNat = r * 4096) (hsize : size ≤ 0xFFFFF) :
    (∀ p q : BlockMap, p.size = size → reserveBlockMap blockMap p = .ok q → MapReserved blockMap q) ↔
      (mapWords size + 1023) / 1024 ≤ reserveRounds size ∨ size < r + reserveRounds size ∨
        size = r + reserveRounds size ∧ r + (mapWords size + 1023) / 1024 ≤ 0x100000 := by
  have hlt := blockMap.isLt
  have hrounds : reserveRounds size ≤ 8 ∧ mapWords size ≤ 32768 ∧ (reserveRounds size = 0 → mapWords size ≤ 1) := by
    unfold reserveRounds mapWords
    omega
  constructor
  · intro h
    by_contra hno
    push Not at hno
    obtain ⟨h1, h2, h3⟩ := hno
    obtain ⟨q, hq⟩ := reserveBlockMap_total (p := freeMap size hsize) hr (Or.inr h2)
    obtain ⟨hs, -, hu⟩ := reserveBlockMap_ok hr hq
    have hmiss : ∀ t < 4 * mapWords size, (r + t / 4096) % 0x100000 < size →
        InRange r (reserveRounds size) ((r + t / 4096) % 0x100000) := by
      intro t ht hin
      have hdist := (eq_add_iff (show t < 0x100000000 by omega)).1 (rfl : blockMap + BitVec.ofNat 32 t = _)
      have hused := h _ q rfl hq (blockMap + BitVec.ofNat 32 t)
      rw [block_of_offset hr, hu] at hused
      have huse := hused (by unfold InMap; rw [hdist, hs]; exact ht) (by rw [hs]; exact hin)
      rw [Bool.or_eq_true, decide_eq_true_eq] at huse
      rcases huse with hfree | hin'
      · exact absurd hfree (by simp [freeMap, BlockMap.used])
      · exact hin'
    unfold InRange at hmiss
    rcases Nat.eq_or_lt_of_le h2 with heq | hgt
    · -- the map wraps around to block 0
      have hwrap := h3 heq.symm
      have := hmiss ((0x100000 - r) * 4096) (by omega) (by omega)
      omega
    · have := hmiss (reserveRounds size * 4096) (by omega) (by omega)
      omega
  · rintro hc p q rfl hq a ha hb
    obtain ⟨hs, hret, hu⟩ := reserveBlockMap_ok hr hq
    obtain ⟨t, ht, rfl⟩ : ∃ t < 0x100000000, a = blockMap + BitVec.ofNat 32 t :=
      ⟨(a - blockMap).toNat, (a - blockMap).isLt, (eq_add_iff (a - blockMap).isLt).2 rfl⟩
    have hdist := (eq_add_iff ht).1 (rfl : blockMap + BitVec.ofNat 32 t = _)
    unfold InMap at ha
    rw [hdist, hs] at ha
    rw [block_of_offset hr, hs] at hb
    rw [block_of_offset hr, hu, Bool.or_eq_true, decide_eq_true_eq]
    right
    unfold InRange
    omega

end Reserve

theorem roundEnd_toNat (e : Word) : (roundEnd e).toNat = (e + 0xFFF#32).toNat / 4096 * 4096 := page_toNat (e + 0xFFF#32)

/-- **The block map.** With the map behind the rounded end of the kernel and its modules, the code does what it is for
exactly when memory has at most four blocks and the map lies behind its end. -/
theorem block_map_safe_iff (memSize e : Word) : BlockMapSafe memSize (roundEnd e) ↔
    1 ≤ blockMapSize memSize ∧ blockMapSize memSize ≤ 4 ∧ blockMapSize memSize ≤ (roundEnd e).toNat / 4096 := by
  have hle := blockMapSize_le memSize
  have hr : (roundEnd e).toNat = (roundEnd e).toNat / 4096 * 4096 := by
    rw [roundEnd_toNat]
    omega
  constructor
  · intro h
    obtain ⟨mem', hinit, -, -, hres⟩ := h fun _ => 0#8
    obtain ⟨hmap, hsize⟩ := pmmInitAt_eq_ok hinit
    have hfour : blockMapSize memSize ≤ 4 := by
      apply (pmmInitAt_only_map_iff hmap hsize).1
      intro mem mem'' h' a ha
      obtain ⟨mem₁, hinit₁, honly, -⟩ := h mem
      rw [hinit₁, Except.ok.injEq] at h'
      rw [← h']
      exact honly a ha
    have hcov := (reserve_covers_iff hr (by omega)).1 hres
    unfold reserveRounds mapWords at hcov
    omega
  · rintro ⟨h1, h4, hend⟩ mem
    have hmap : roundEnd e ≠ 0#32 := by
      intro h0
      rw [h0] at hend
      simp only [BitVec.toNat_ofNat] at hend
      omega
    have hsize : blockMapSize memSize ≠ 0 := by omega
    have hinit := @pmmInitAt_ok mem _ _ hmap hsize
    refine ⟨_, hinit, (pmmInitAt_only_map_iff hmap hsize).2 h4 mem _ hinit, pmmInitAt_used hinit, ?_⟩
    apply (reserve_covers_iff hr (by omega)).2
    unfold reserveRounds mapWords
    have hpage := (roundEnd e).isLt
    omega

/-- A map of 256 MiB of memory in which the blocks from 2 MiB on are free. -/
def afterMemoryMap : BlockMap := ⟨fun i => if i < 16 then 0xFFFFFFFF#32 else 0#32, 0x10000, by omega⟩

/-- A machine of 256 MiB whose kernel ends at 2 MiB: `pmm_init` writes behind the map, and when the blocks from 2 MiB
on were free, the second page of the map is still free after the loop, and is what the allocator hands out. -/
theorem block_map_handed_out :
    ¬ BlockMapSafe 0x10000000#32 (roundEnd 0x200000#32) ∧
    (∃ mem mem' a, pmmInitAt mem 0x200000#32 0x10000000#32 = .ok mem' ∧ ¬ InMap 0x200000#32 0x10000 a ∧ mem' a ≠ mem a) ∧
    ∃ q q' : BlockMap, reserveBlockMap 0x200000#32 afterMemoryMap = .ok q ∧
      pmmAllocBlocks q 1 = .ok (0x201000, q') ∧ InMap 0x200000#32 q.size 0x201000#32 := by
  refine ⟨fun h => ?_, ?_, ?_⟩
  · obtain ⟨mem', hinit, honly, -⟩ := h fun _ => 0#8
    rw [show roundEnd 0x200000#32 = 0x200000#32 by decide] at hinit honly
    rw [pmmInitAt_ok (by decide) (by decide), Except.ok.injEq] at hinit
    subst hinit
    have hbyte := honly 0x202000#32 (by unfold InMap; decide)
    exact absurd hbyte (by decide)
  · refine ⟨fun _ => 0#8, _, 0x202000#32, pmmInitAt_ok (by decide) (by decide), by unfold InMap; decide, by decide⟩
  · have hset : reserveBlockMap 0x200000#32 afterMemoryMap = pmmSetBlock afterMemoryMap 512 >>= fun q => .ok q := rfl
    refine ⟨_, _, hset.trans rfl, rfl, ?_⟩
    unfold InMap
    decide

end Myunix.Boot
