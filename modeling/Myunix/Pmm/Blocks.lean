import Mathlib.Data.Nat.Count
import Myunix.Base

/-!
# The physical block allocator (`pmm.c`)

Physical memory is handed out in blocks of 4096 bytes. `block_map` has one bit per block, in 32-bit words; a set bit
is a used block. Block 0 stands for "no block", and is marked used at boot.

The bit view of the map is `BlockMap.used`; `pmmSetBlock_ok`, `pmmUnsetBlock_ok` and `pmmTestBlock_eq` say what the
word arithmetic does to it. The searches return blocks whose bits they have looked at: `pmmFindRegion_free`.
-/

namespace Myunix.Pmm

open Lib

/-- `block_map` and `block_map_size`. `pmm_init` divides a 32-bit byte count by the block size, which bounds the
number of blocks. -/
structure BlockMap where
  words : Nat → Word
  size : Nat
  size_le : size ≤ 0xFFFFF

/-- `pmm_init`: `memset` makes the first `block_map_size` bytes at the map's address `0xFF`; `mem` is what was there. -/
def pmmInit (mem : Nat → Word) (memSize : Word) : Kernel BlockMap := do
  kassert (memSize.toNat / 4096 ≠ 0)
  return {
    words i := mem i ||| BitVec.allOnes 32 >>> (32 - 8 * min 4 (memSize.toNat / 4096 - 4 * i))
    size := memSize.toNat / 4096
    size_le := by omega }

/-- The bit of block `b`. -/
def BlockMap.used (p : BlockMap) (b : Nat) : Bool := (p.words (b / 32)).getLsbD (b % 32)

/-- `pmm_set_block`. -/
def pmmSetBlock (p : BlockMap) (block : Nat) : Kernel BlockMap := do
  kassert (block < p.size)
  let word := p.words (block / 32) ||| BitVec.twoPow 32 (block % 32)
  return { p with words := Function.update p.words (block / 32) word }

/-- `pmm_unset_block`. -/
def pmmUnsetBlock (p : BlockMap) (block : Nat) : Kernel BlockMap := do
  kassert (block < p.size)
  let word := p.words (block / 32) &&& ~~~ BitVec.twoPow 32 (block % 32)
  return { p with words := Function.update p.words (block / 32) word }

/-- `pmm_test_block`. -/
def pmmTestBlock (p : BlockMap) (block : Nat) : Kernel Bool := do
  kassert (block < p.size)
  return (p.words (block / 32) &&& BitVec.twoPow 32 (block % 32)) != 0#32

/-! ## Searches -/

/-- The bit loop of `pmm_find_first_free`: the first clear bit among the `n` bits from `j`. -/
def firstClear (w : Word) : Nat → Nat → Option Nat
  | _, 0 => none
  | j, n + 1 => if w &&& BitVec.twoPow 32 j = 0#32 then some j else firstClear w (j + 1) n

/-- The word loop of `pmm_find_first_free`, over `n` words from word `i`. -/
def firstFreeFrom (p : BlockMap) : Nat → Nat → Nat
  | _, 0 => 0
  | i, n + 1 =>
    if p.words i = 0xFFFFFFFF then firstFreeFrom p (i + 1) n
    else match firstClear (p.words i) 0 32 with
      | some j => i * 32 + j
      | none => firstFreeFrom p (i + 1) n

/-- `pmm_find_first_free`. -/
def pmmFindFirstFree (p : BlockMap) : Nat := firstFreeFrom p 0 (p.size / 32)

/-- The `while` loop of `pmm_find_region`: extend a run of `length` free blocks at `start` by up to `n` more. The
assertion ends it before `start + length` could wrap. -/
def regionLength (p : BlockMap) (start : Nat) : Nat → Nat → Kernel Nat
  | length, 0 => .ok length
  | length, n + 1 => do
    kassert (start + length < p.size)
    if ← pmmTestBlock p (start + length) then return length else regionLength p start (length + 1) n

/-- The bit loop of `pmm_find_region`. It returns the start of a region, or the word index it has moved on to; 32
rounds are enough, as `j` grows in each. -/
def regionBits (p : BlockMap) (size : Nat) : Nat → Nat → Nat → Kernel (Nat ⊕ Nat)
  | 0, i, _ => .ok (.inr i)
  | rounds + 1, i, j =>
    if j < 32 then
      if p.words i &&& BitVec.twoPow 32 j ≠ 0#32 then regionBits p size rounds i (j + 1)
      else do
        let length ← regionLength p (i * 32 + j) 1 (size - 1)
        if length = size then return .inl (i * 32 + j)
        else regionBits p size rounds (i + length / 32) (j + length % 32 + 1)
    else .ok (.inr i)

/-- The word loop of `pmm_find_region`; each round moves on by at least one word. -/
def regionWords (p : BlockMap) (size : Nat) : Nat → Nat → Kernel Nat
  | 0, _ => .ok 0
  | rounds + 1, i =>
    if i < p.size / 32 then
      if p.words i = 0xFFFFFFFF then regionWords p size rounds (i + 1)
      else do
        match ← regionBits p size 32 i 0 with
        | .inl start => return start
        | .inr i => regionWords p size rounds (i + 1)
    else .ok 0

/-- `pmm_find_region`. -/
def pmmFindRegion (p : BlockMap) (size : Nat) : Kernel Nat := do
  kassert (size ≠ 0)
  if size = 1 then return pmmFindFirstFree p else regionWords p size (p.size / 32) 0

/-! ## Allocation -/

/-- `pmm_alloc_blocks`: the address of the region, or 0. -/
def pmmAllocBlocks (p : BlockMap) (size : Nat) : Kernel (Nat × BlockMap) := do
  kassert (size ≠ 0)
  let block ← pmmFindRegion p size
  if block = 0 then return (0, p)
  else
    let p ← forRange (fun i p => pmmSetBlock p (block + i)) 0 size p
    return (block * 4096 % 0x100000000, p)

/-- `pmm_alloc_blocks_safe`. -/
def pmmAllocBlocksSafe (p : BlockMap) (size : Nat) : Kernel (Nat × BlockMap) := do
  let (v, p) ← pmmAllocBlocks p size
  kassert (v ≠ 0)
  return (v, p)

/-- `pmm_free_blocks`. -/
def pmmFreeBlocks (p : BlockMap) (addr size : Nat) : Kernel BlockMap := do
  kassert (size ≠ 0)
  forRange (fun i p => pmmUnsetBlock p (addr / 4096 + i)) 0 size p

/-- The loop of `pmm_count_free_blocks`. -/
def countFreeFrom (p : BlockMap) : Nat → Nat → Nat → Kernel Nat
  | _, 0, count => .ok count
  | i, n + 1, count => do
    if ← pmmTestBlock p i then countFreeFrom p (i + 1) n count else countFreeFrom p (i + 1) n (count + 1)

/-- `pmm_count_free_blocks`. -/
def pmmCountFreeBlocks (p : BlockMap) : Kernel Nat := countFreeFrom p 0 p.size 0

/-! ## Bits -/

theorem and_twoPow_ne_zero {n : Nat} {w : BitVec n} {j : Nat} (hj : j < n) :
    w &&& BitVec.twoPow n j ≠ 0#n ↔ w.getLsbD j = true := by
  rw [BitVec.and_twoPow]
  constructor
  · intro h
    by_contra hc
    rw [if_neg hc] at h
    exact h rfl
  · intro h
    rw [if_pos h]
    intro h0
    have := congrArg (fun v => v.getLsbD j) h0
    simp [hj] at this

section Bits

variable {p : BlockMap}

theorem pmmTestBlock_eq {b : Nat} (hb : b < p.size) : pmmTestBlock p b = .ok (p.used b) := by
  have hiff := and_twoPow_ne_zero (w := p.words (b / 32)) (Nat.mod_lt b (by omega : 0 < 32))
  have : ((p.words (b / 32) &&& BitVec.twoPow 32 (b % 32)) != 0#32) = p.used b := by
    rw [Bool.eq_iff_iff, bne_iff_ne]; exact hiff
  simp [pmmTestBlock, hb, this, pure, Except.pure]

theorem pmmTestBlock_ok {b : Nat} {r : Bool} (h : pmmTestBlock p b = .ok r) : b < p.size ∧ r = p.used b := by
  have hb : b < p.size := by
    simp only [pmmTestBlock, bind_eq_ok, assert_eq_ok] at h
    obtain ⟨-, hb, -⟩ := h
    exact hb
  rw [pmmTestBlock_eq hb, Except.ok.injEq] at h
  exact ⟨hb, h.symm⟩

/-- Two blocks have the same bit exactly when they are the same. -/
theorem block_eq {a b : Nat} : a = b ↔ a / 32 = b / 32 ∧ a % 32 = b % 32 := by omega

/-- `pmm_set_block` sets one bit. -/
theorem pmmSetBlock_ok {b : Nat} {q : BlockMap} (h : pmmSetBlock p b = .ok q) :
    b < p.size ∧ q.size = p.size ∧ ∀ c, q.used c = (p.used c || decide (c = b)) := by
  simp only [pmmSetBlock, bind_eq_ok, assert_eq_ok, pure_eq_ok] at h
  obtain ⟨-, hb, rfl⟩ := h
  refine ⟨hb, rfl, fun c => ?_⟩
  simp only [BlockMap.used]
  by_cases hw : c / 32 = b / 32
  · have hc := Nat.mod_lt b (by omega : 0 < 32)
    rw [hw, Function.update_self, BitVec.getLsbD_or, BitVec.getLsbD_twoPow]
    have : (b % 32 = c % 32) ↔ (c = b) := by rw [block_eq]; omega
    simp [hc, this]
  · have : c ≠ b := fun h => hw (by rw [h])
    rw [Function.update_of_ne hw]
    simp [this]

/-- `pmm_unset_block` clears one bit. -/
theorem pmmUnsetBlock_ok {b : Nat} {q : BlockMap} (h : pmmUnsetBlock p b = .ok q) :
    b < p.size ∧ q.size = p.size ∧ ∀ c, q.used c = (p.used c && !decide (c = b)) := by
  simp only [pmmUnsetBlock, bind_eq_ok, assert_eq_ok, pure_eq_ok] at h
  obtain ⟨-, hb, rfl⟩ := h
  refine ⟨hb, rfl, fun c => ?_⟩
  simp only [BlockMap.used]
  by_cases hw : c / 32 = b / 32
  · have hc := Nat.mod_lt b (by omega : 0 < 32)
    have hc' := Nat.mod_lt c (by omega : 0 < 32)
    rw [hw, Function.update_self, BitVec.getLsbD_and, BitVec.getLsbD_not, BitVec.getLsbD_twoPow]
    have : (b % 32 = c % 32) ↔ (c = b) := by rw [block_eq]; omega
    simp [hc, hc', this]
  · have : c ≠ b := fun h => hw (by rw [h])
    rw [Function.update_of_ne hw]
    simp [this]

end Bits

/-! ## What the searches return -/

section Searches

variable {p : BlockMap}

theorem firstClear_some {w : Word} {n j k : Nat} (h : firstClear w j n = some k) :
    j ≤ k ∧ k < j + n ∧ w &&& BitVec.twoPow 32 k = 0#32 := by
  induction n generalizing j with
  | zero => cases h
  | succ n ih =>
    unfold firstClear at h
    split at h
    · cases h; exact ⟨Nat.le_refl k, by omega, ‹_›⟩
    · obtain ⟨h1, h2, h3⟩ := ih h
      exact ⟨by omega, by omega, h3⟩

/-- A block of word `i` whose bit is clear. -/
theorem not_used_of_and {i j : Nat} (hj : j < 32) (h : p.words i &&& BitVec.twoPow 32 j = 0#32) :
    p.used (i * 32 + j) = false := by
  have hi : (i * 32 + j) / 32 = i := by omega
  have hj' : (i * 32 + j) % 32 = j := by omega
  unfold BlockMap.used
  rw [hi, hj', Bool.eq_false_iff]
  intro hc
  exact (and_twoPow_ne_zero hj).2 hc h

/-- `pmm_find_first_free` returns 0 or a free block of the scanned words. -/
theorem firstFreeFrom_free (n i : Nat) : firstFreeFrom p i n = 0 ∨
    (firstFreeFrom p i n < (i + n) * 32 ∧ p.used (firstFreeFrom p i n) = false) := by
  induction n generalizing i with
  | zero => exact Or.inl rfl
  | succ n ih =>
    have hrest := ih (i + 1)
    rw [show i + 1 + n = i + (n + 1) by omega] at hrest
    unfold firstFreeFrom
    split
    · exact hrest
    · cases hc : firstClear (p.words i) 0 32 with
      | none => exact hrest
      | some j =>
        obtain ⟨-, h2, h3⟩ := firstClear_some hc
        exact Or.inr ⟨by simp only; omega, not_used_of_and (by omega) h3⟩

/-- The blocks counted by the `while` loop are free and below `block_map_size`. -/
theorem regionLength_free {start n length r : Nat} (h : regionLength p start length n = .ok r) :
    length ≤ r ∧ r ≤ length + n ∧ ∀ k, length ≤ k → k < r → start + k < p.size ∧ p.used (start + k) = false := by
  induction n generalizing length with
  | zero =>
    simp only [regionLength, Except.ok.injEq] at h
    subst h
    exact ⟨Nat.le_refl _, Nat.le_refl _, fun k h1 h2 => by omega⟩
  | succ n ih =>
    simp only [regionLength, bind_eq_ok, assert_eq_ok] at h
    obtain ⟨-, hlt, u, hu, h⟩ := h
    obtain ⟨-, rfl⟩ := pmmTestBlock_ok hu
    split at h
    · simp only [pure_eq_ok] at h
      subst h
      exact ⟨Nat.le_refl _, by omega, fun k h1 h2 => by omega⟩
    · rename_i hfree
      obtain ⟨h1, h2, h3⟩ := ih h
      refine ⟨by omega, by omega, fun k hk hkr => ?_⟩
      by_cases hkl : k = length
      · subst hkl; exact ⟨hlt, by simpa using hfree⟩
      · exact h3 k (by omega) hkr

/-- A region found by the bit loop is free and below `block_map_size`. -/
theorem regionBits_free {size rounds i j start : Nat} (hs : 2 ≤ size)
    (h : regionBits p size rounds i j = .ok (.inl start)) :
    ∀ k < size, start + k < p.size ∧ p.used (start + k) = false := by
  induction rounds generalizing i j with
  | zero => simp [regionBits] at h
  | succ rounds ih =>
    unfold regionBits at h
    split at h
    · rename_i hj
      split at h
      · exact ih h
      · rename_i hbit
        simp only [ne_eq, not_not] at hbit
        simp only [bind_eq_ok] at h
        obtain ⟨length, hlen, h⟩ := h
        split at h
        · rename_i heq
          simp only [pure_eq_ok, Sum.inl.injEq] at h
          subst h
          obtain ⟨-, -, h3⟩ := regionLength_free hlen
          -- the first block was looked at in its word, the others one by one
          have h1 := h3 1 (Nat.le_refl 1) (by omega)
          intro k hk
          rcases Nat.eq_zero_or_pos k with rfl | hk0
          · rw [Nat.add_zero]; exact ⟨by omega, not_used_of_and hj hbit⟩
          · exact h3 k hk0 (by omega)
        · exact ih h
    · cases h

theorem regionWords_free {size rounds i start : Nat} (hs : 2 ≤ size) (h : regionWords p size rounds i = .ok start)
    (h0 : start ≠ 0) : ∀ k < size, start + k < p.size ∧ p.used (start + k) = false := by
  induction rounds generalizing i with
  | zero =>
    simp only [regionWords, Except.ok.injEq] at h
    exact absurd h.symm h0
  | succ rounds ih =>
    unfold regionWords at h
    split at h
    · split at h
      · exact ih h
      · simp only [bind_eq_ok] at h
        obtain ⟨r, hr, h⟩ := h
        cases r with
        | inl s =>
          simp only [pure_eq_ok] at h
          subst h
          exact regionBits_free hs hr
        | inr i' => exact ih h
    · simp only [Except.ok.injEq] at h
      exact absurd h.symm h0

/-- **A region that `pmm_find_region` returns** is free and below `block_map_size`. -/
theorem pmmFindRegion_free {size start : Nat} (h : pmmFindRegion p size = .ok start) (h0 : start ≠ 0) :
    ∀ k < size, start + k < p.size ∧ p.used (start + k) = false := by
  simp only [pmmFindRegion, bind_eq_ok, assert_eq_ok] at h
  obtain ⟨-, hne, h⟩ := h
  split at h
  · rename_i h1
    simp only [pure_eq_ok] at h
    subst h
    intro k hk
    rcases firstFreeFrom_free (p := p) (p.size / 32) 0 with hz | ⟨hlt, hfree⟩
    · exact absurd hz h0
    · have : k = 0 := by omega
      subst this
      exact ⟨by unfold pmmFindFirstFree; omega, hfree⟩
  · exact regionWords_free (by omega) h h0

end Searches

/-! ## What allocation and release do to the map -/

section Alloc

variable {p q : BlockMap}

/-- Block `c` is one of the `size` blocks from `b` on. -/
abbrev InRange (b size c : Nat) : Prop := b ≤ c ∧ c < b + size

theorem inRange_zero {b c : Nat} : ¬ InRange b 0 c := by unfold InRange; omega

theorem inRange_succ {b i c : Nat} : InRange b (i + 1) c = (InRange b i c ∨ c = b + i) := by
  rw [eq_iff_iff]; unfold InRange; omega

/-- The marking loop of `pmm_alloc_blocks` sets the bits of its range. -/
theorem setBlocks_ok {b size : Nat} (h : forRange (fun i p => pmmSetBlock p (b + i)) 0 size p = .ok q) :
    q.size = p.size ∧ ∀ c, q.used c = (p.used c || decide (InRange b size c)) := by
  have hinv := forRange_inv (P := fun i u => u.size = p.size ∧ ∀ c, u.used c = (p.used c || decide (InRange b i c)))
    ?_ h ?_
  · rwa [Nat.zero_add] at hinv
  · rintro i u u' _ _ ⟨hs, hu⟩ hstep
    obtain ⟨-, hs', hu'⟩ := pmmSetBlock_ok hstep
    refine ⟨hs'.trans hs, fun c => ?_⟩
    simp only [hu', hu, inRange_succ, Bool.decide_or, Bool.or_assoc]
  · exact ⟨rfl, fun c => by rw [decide_eq_false inRange_zero, Bool.or_false]⟩

/-- **`pmm_alloc_blocks`** returns 0 and leaves the map, or takes blocks that were free. -/
theorem pmmAllocBlocks_ok {size addr : Nat} (h : pmmAllocBlocks p size = .ok (addr, q)) :
    (addr = 0 ∧ q = p) ∨ ∃ b, b ≠ 0 ∧ addr = b * 4096 ∧ (∀ c, InRange b size c → c < p.size ∧ p.used c = false) ∧
      size ≠ 0 ∧ q.size = p.size ∧ ∀ c, q.used c = (p.used c || decide (InRange b size c)) := by
  simp only [pmmAllocBlocks, bind_eq_ok, assert_eq_ok] at h
  obtain ⟨-, hne, b, hfind, h⟩ := h
  split at h
  · simp only [pure_eq_ok, Prod.mk.injEq] at h
    exact Or.inl ⟨h.1.symm, h.2.symm⟩
  · rename_i hb
    simp only [bind_eq_ok, pure_eq_ok, Prod.mk.injEq] at h
    obtain ⟨q', hset, rfl, rfl⟩ := h
    have hfree := pmmFindRegion_free hfind hb
    obtain ⟨hs, hu⟩ := setBlocks_ok hset
    have hlt := (hfree 0 (Nat.pos_of_ne_zero hne)).1
    have hle := p.size_le
    refine Or.inr ⟨b, hb, Nat.mod_eq_of_lt (by omega), fun c hc => ?_, hne, hs, hu⟩
    have := hfree (c - b) (by omega)
    rwa [show b + (c - b) = c by omega] at this

/-- `pmm_alloc_blocks_safe` takes blocks that were free. -/
theorem pmmAllocBlocksSafe_ok {size addr : Nat} (h : pmmAllocBlocksSafe p size = .ok (addr, q)) :
    ∃ b, b ≠ 0 ∧ addr = b * 4096 ∧ (∀ c, InRange b size c → c < p.size ∧ p.used c = false) ∧
      size ≠ 0 ∧ q.size = p.size ∧ ∀ c, q.used c = (p.used c || decide (InRange b size c)) := by
  simp only [pmmAllocBlocksSafe, bind_eq_ok, assert_eq_ok, pure_eq_ok, Prod.exists, Prod.mk.injEq] at h
  obtain ⟨v, p', halloc, -, hv, rfl, rfl⟩ := h
  rcases pmmAllocBlocks_ok halloc with ⟨h0, -⟩ | h
  · exact absurd h0 hv
  · exact h

/-- **`pmm_free_blocks`** clears the bits of its range. -/
theorem pmmFreeBlocks_ok {addr size : Nat} (h : pmmFreeBlocks p addr size = .ok q) :
    q.size = p.size ∧ ∀ c, q.used c = (p.used c && !decide (InRange (addr / 4096) size c)) := by
  simp only [pmmFreeBlocks, bind_eq_ok, assert_eq_ok] at h
  obtain ⟨-, -, h⟩ := h
  have hinv := forRange_inv
    (P := fun i u => u.size = p.size ∧ ∀ c, u.used c = (p.used c && !decide (InRange (addr / 4096) i c))) ?_ h ?_
  · rwa [Nat.zero_add] at hinv
  · rintro i u u' _ _ ⟨hs, hu⟩ hstep
    obtain ⟨-, hs', hu'⟩ := pmmUnsetBlock_ok hstep
    refine ⟨hs'.trans hs, fun c => ?_⟩
    simp only [hu', hu, inRange_succ, Bool.decide_or, Bool.not_or, Bool.and_assoc]
  · exact ⟨rfl, fun c => by rw [decide_eq_false inRange_zero, Bool.not_false, Bool.and_true]⟩

end Alloc

/-! ## Counting -/

/-- `pmm_count_free_blocks` counts the clear bits. -/
theorem countFreeFrom_eq {p : BlockMap} {n i count : Nat} (h : i + n ≤ p.size) :
    countFreeFrom p i n count = .ok (count + Nat.count (fun k => p.used (i + k) = false) n) := by
  induction n generalizing i count with
  | zero => rw [Nat.count_zero]; rfl
  | succ n ih =>
    have hrest := fun count => @ih (i + 1) count (by omega)
    have hshift : (fun k => p.used (i + 1 + k) = false) = fun k => p.used (i + (k + 1)) = false := by
      funext k
      rw [show i + 1 + k = i + (k + 1) by omega]
    simp only [hshift] at hrest
    simp only [countFreeFrom, pmmTestBlock_eq (by omega : i < p.size), ok_bind, Nat.count_succ', Nat.add_zero, hrest]
    cases p.used i with
    | false =>
      simp only [Bool.false_eq_true, if_false, if_true]
      rw [show count + 1 + Nat.count (fun k => p.used (i + (k + 1)) = false) n =
        count + (Nat.count (fun k => p.used (i + (k + 1)) = false) n + 1) by omega]
    | true => simp

end Myunix.Pmm
