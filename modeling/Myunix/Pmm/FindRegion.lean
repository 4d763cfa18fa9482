import Myunix.Lib.Census
import Myunix.Lib.FirstFit
import Myunix.Pmm.Blocks

/-!
# Which region `pmm_find_region` returns

`pmm_find_region` scans whole words of the block map and probes blocks forward from each clear bit. It should return the
first region of `size` free blocks below `block_map_size`, or 0 when there is none.

The two loops are a first-fit scan (`regionBits_scan`, `regionWords_scan`). The blocks behind the last whole word are
special: they are looked at only when a run that is too short leads the bit loop into them, and then so are the bits
behind `block_map_size`. A probe that reaches `block_map_size` fails the assertion of the loop.
-/

namespace Myunix.Pmm

open Lib

/-- The blocks below `block_map_size`, and which are free. -/
def blockCells (p : BlockMap) : Cells where
  free b := !p.used b
  size := p.size

/-- The first block behind the whole words of the map. -/
def wholeBlocks (p : BlockMap) : Nat := p.size / 32 * 32

/-- The last, partial word has a clear bit with no used block behind it. -/
def EndsClear (p : BlockMap) : Prop :=
  ∃ b, wholeBlocks p ≤ b ∧ b < wholeBlocks p + 32 ∧ TailFree (blockCells p) b

/-- The scan of `pmm_find_region`: after a run from `t` to the used block `e`, the loops go on behind `e` when its bit
is not below the bit of `t`, and else in the word of `e`, unless it is the last. -/
def regionScan (p : BlockMap) : ScanMap where
  toCells := blockCells p
  whole := wholeBlocks p
  leads t e := t % 32 ≤ e % 32
  ends := EndsClear p

section Loops

variable {p : BlockMap} {n i j g : Nat}

theorem free_iff {b : Nat} : (blockCells p).free b = true ↔ p.used b = false := by
  simp [blockCells]

theorem not_free_iff {b : Nat} : (blockCells p).free b = false ↔ p.used b = true := by
  simp [blockCells]

/-- The bit of block `j` of word `i`. -/
theorem and_twoPow_iff (hj : j < 32) : p.words i &&& BitVec.twoPow 32 j ≠ 0#32 ↔ p.used (i * 32 + j) = true := by
  have hi : (i * 32 + j) / 32 = i := by omega
  have hj' : (i * 32 + j) % 32 = j := by omega
  rw [and_twoPow_ne_zero hj]
  unfold BlockMap.used
  rw [hi, hj']

/-- All blocks of a word `0xFFFFFFFF` are used. -/
theorem used_of_full (h : p.words i = 0xFFFFFFFF) {b : Nat} (h1 : i * 32 ≤ b) (h2 : b < (i + 1) * 32) :
    p.used b = true := by
  have hi : b / 32 = i := by omega
  have hb : b % 32 < 32 := Nat.mod_lt b (by omega)
  unfold BlockMap.used
  rw [hi, h, show (0xFFFFFFFF : Word) = BitVec.allOnes 32 from rfl, BitVec.getLsbD_allOnes]
  simpa using hb

/-- The `while` loop is a probe. -/
theorem regionLength_probe {b len rest : Nat} (hn : len + rest = n) :
    Probe (blockCells p) n .assertion b len (regionLength p b len rest) := by
  induction rest generalizing len with
  | zero =>
    subst hn
    exact Probe.done
  | succ rest ih =>
    unfold regionLength
    by_cases hlt : b + len < p.size
    · simp only [assert_pos hlt, ok_bind, pmmTestBlock_eq hlt]
      split
      · rename_i hu
        exact Probe.stop (by omega) hlt (not_free_iff.2 hu)
      · rename_i hu
        exact Probe.more (by omega) hlt (free_iff.2 (by simpa using hu)) (ih (by omega))
    · simp only [assert_neg hlt, error_bind]
      exact Probe.out (by omega) (by simpa [blockCells] using hlt)

/-- What the `while` loop returns for a clear bit. -/
theorem regionLength_cases {pos : Nat} (hn : 2 ≤ n) (hfree : p.used pos = false) :
    (Fit (blockCells p) n pos ∧ regionLength p pos 1 (n - 1) = .ok n) ∨
      (∃ e, ShortRun (blockCells p) n pos e ∧ pos < e ∧ regionLength p pos 1 (n - 1) = .ok (e - pos)) ∨
      (TailFree (blockCells p) pos ∧ p.size < pos + n ∧ regionLength p pos 1 (n - 1) = .error .assertion) := by
  have hprobe := regionLength_probe (p := p) (b := pos) (show 1 + (n - 1) = n by omega)
  have hrun : ∀ b, pos ≤ b → b < pos + 1 → (blockCells p).free b = true := by
    intro b h1 h2
    rw [show b = pos by omega]
    exact free_iff.2 hfree
  rcases hprobe.cases hrun (Or.inl (by omega)) with hfit | ⟨e, hshort, hle, hr⟩ | ⟨htail, hsize, hr⟩
  · exact Or.inl hfit
  · exact Or.inr (Or.inl ⟨e, hshort, by omega, hr⟩)
  · exact Or.inr (Or.inr ⟨⟨free_iff.2 hfree, htail⟩, hsize, hr⟩)

/-- Past the last bit the bit loop ends. -/
theorem regionBits_end (hj : 32 ≤ j) : regionBits p n g i j = .ok (.inr i) := by
  cases g with
  | zero => rfl
  | succ g =>
    unfold regionBits
    rw [if_neg (by omega)]

/-- Past the last whole word the word loop ends. -/
theorem regionWords_end (hi : p.size / 32 ≤ i) : regionWords p n g i = .ok 0 := by
  cases g with
  | zero => rfl
  | succ g =>
    unfold regionWords
    rw [if_neg (by omega)]

/-- A scan of the last word that has come to its end. -/
theorem regionBits_last_end {k : Nat ⊕ Nat → Kernel Nat} (hn : n ≠ 0) (hinr : k (.inr (p.size / 32)) = .ok 0)
    (hj : 32 ≤ j)
    (hprev : ∀ b, wholeBlocks p ≤ b → b < wholeBlocks p + j → ¬ TailFree (blockCells p) b) :
    ScanLast (regionScan p) n .assertion (wholeBlocks p + j) (regionBits p n g (p.size / 32) j >>= k) := by
  rw [regionBits_end hj, ok_bind, hinr]
  refine Or.inr (Or.inl ⟨?_, ?_, rfl⟩)
  · refine no_fit_of_size_lt ?_ hn
    change p.size < wholeBlocks p + j + n
    unfold wholeBlocks
    omega
  · rintro ⟨b, h1, h2, htail⟩
    exact hprev b h1 (by omega) htail

/-- The bit loop in the last, partial word. -/
theorem regionBits_last {k : Nat ⊕ Nat → Kernel Nat} (hn : 2 ≤ n) (hinl : ∀ s, k (.inl s) = .ok s)
    (hinr : k (.inr (p.size / 32)) = .ok 0) (hr : 32 ≤ j + g)
    (hprev : ∀ b, wholeBlocks p ≤ b → b < wholeBlocks p + j → ¬ TailFree (blockCells p) b) :
    ScanLast (regionScan p) n .assertion (wholeBlocks p + j) (regionBits p n g (p.size / 32) j >>= k) := by
  induction g generalizing j with
  | zero => exact regionBits_last_end (by omega) hinr (by omega) hprev
  | succ g ih =>
    rcases Nat.lt_or_ge j 32 with hj | hj
    swap
    · exact regionBits_last_end (by omega) hinr hj hprev
    unfold regionBits
    rw [if_pos hj]
    -- where the loop goes on at bit `j'`, the blocks before it are passed over
    have hnext : ∀ j', PassedOver (blockCells p) n (wholeBlocks p + j) (wholeBlocks p + j') → j < j' →
        ScanLast (regionScan p) n .assertion (wholeBlocks p + j)
          (regionBits p n g (p.size / 32) j' >>= k) := by
      intro j' hpass hlt
      refine ScanLast.pass (ih (by omega) fun b h1 h2 => ?_) hpass
      rcases Nat.lt_or_ge b (wholeBlocks p + j) with hb | hb
      · exact hprev b h1 hb
      · exact hpass.no_tail b hb h2
    by_cases hbit : p.words (p.size / 32) &&& BitVec.twoPow 32 j ≠ 0#32
    · rw [if_pos hbit]
      have hu : p.used (wholeBlocks p + j) = true := (and_twoPow_iff hj).1 hbit
      exact hnext (j + 1) (passedOver_used (by omega) (not_free_iff.2 hu)) (by omega)
    · rw [if_neg hbit]
      have hfree : p.used (wholeBlocks p + j) = false := not_used_of_and hj (not_not.1 hbit)
      change ScanLast (regionScan p) n .assertion (wholeBlocks p + j)
        ((regionLength p (wholeBlocks p + j) 1 (n - 1) >>= _) >>= k)
      rcases regionLength_cases hn hfree with ⟨hfit, hr⟩ | ⟨e, hshort, hlt, hr⟩ | ⟨htail, hsize, hr⟩
      · simp only [hr, ok_bind, if_pos, pure, Except.pure, hinl]
        exact ScanLast.found hfit
      · -- the run ends in the same word
        have hword : (e - (wholeBlocks p + j)) / 32 = 0 := by
          have := hshort.below
          simp only [wholeBlocks, blockCells] at *
          omega
        have hshort' := hshort.short
        simp only [hr, ok_bind, if_neg (show e - (wholeBlocks p + j) ≠ n by omega), hword, Nat.add_zero]
        refine hnext _ (hshort.passedOver (by omega) ?_) (by omega)
        omega
      · simp only [hr, error_bind]
        refine Or.inr (Or.inr ⟨no_fit_of_size_lt hsize (by omega), ?_, rfl⟩)
        exact ⟨wholeBlocks p + j, by omega, by omega, htail⟩

/-- Where the loops probe: behind a used block, behind the whole words, or in the word of a used block which the probe
will reach. -/
def ProbesAt (p : BlockMap) (pos : Nat) : Prop :=
  p.used (pos - 1) = true ∨ wholeBlocks p ≤ pos ∨ ∃ e, pos ≤ e ∧ e < wholeBlocks p ∧ p.used e = true

theorem used_before_of_probesAt {pos e : Nat} (hat : ProbesAt p pos) (hrun : ShortRun (blockCells p) n pos e)
    (hstart : pos < wholeBlocks p) (hstop : wholeBlocks p ≤ e) : p.used (pos - 1) = true := by
  rcases hat with hu | hle | ⟨e', h1, h2, hu⟩
  · exact hu
  · omega
  · have hfree := free_iff.1 (hrun.run e' h1 (by omega))
    rw [hu] at hfree
    cases hfree

/-- A run that is too short leads the bit loop into the last word. -/
theorem regionBits_enter {k : Nat ⊕ Nat → Kernel Nat} {pos e : Nat} (hn : 2 ≤ n) (hinl : ∀ s, k (.inl s) = .ok s)
    (hlast : k (.inr (p.size / 32)) = .ok 0) (hr : 32 ≤ j + g) (hshort : ShortRun (blockCells p) n pos e)
    (hat : ProbesAt p pos) (hstart : pos < wholeBlocks p) (hstop : wholeBlocks p ≤ e) (hbits : pos % 32 ≤ e % 32)
    (hj : wholeBlocks p + j = e + 1) :
    Scan (regionScan p) n .assertion pos (regionBits p n g (p.size / 32) j >>= k) := by
  have hprev : ∀ b, wholeBlocks p ≤ b → b < wholeBlocks p + j → ¬ TailFree (blockCells p) b := by
    intro b _ hb htail
    have hfree := htail.2 e (by omega) hshort.below
    rw [hshort.behind] at hfree
    cases hfree
  have hscan := regionBits_last hn hinl hlast hr hprev
  rw [hj] at hscan
  have hbefore := not_free_iff.2 (used_before_of_probesAt hat hshort hstart hstop)
  exact Scan.enter hscan hshort ⟨hstart, hstop, hshort.below, hbefore, hshort.run, hshort.behind, hbits⟩

/-- Where the bit loop goes on after a run of `len` blocks that is too short. -/
theorem regionBits_after {k : Nat ⊕ Nat → Kernel Nat} {len : Nat} (hn : 2 ≤ n) (hinl : ∀ s, k (.inl s) = .ok s)
    (hlast : k (.inr (p.size / 32)) = .ok 0) (hr : 32 ≤ j + 1 + g) (hi : i < p.size / 32) (hj : j < 32)
    (hinr : ∀ i' ≥ i, ProbesAt p ((i' + 1) * 32) → Scan (regionScan p) n .assertion ((i' + 1) * 32) (k (.inr i')))
    (hat : ProbesAt p (i * 32 + j)) (hrun : ShortRun (blockCells p) n (i * 32 + j) (i * 32 + j + len))
    (hbits : ∀ i' j', i ≤ i' → i' < p.size / 32 → j' ≤ 32 → j < j' → ProbesAt p (i' * 32 + j') →
      Scan (regionScan p) n .assertion (i' * 32 + j') (regionBits p n g i' j' >>= k)) :
    Scan (regionScan p) n .assertion (i * 32 + j)
      (regionBits p n g (i + len / 32) (j + len % 32 + 1) >>= k) := by
  have hbelow : i * 32 + j + len < p.size := hrun.below
  have hused : p.used (i * 32 + j + len) = true := not_free_iff.1 hrun.behind
  have hwhole : i * 32 + j < wholeBlocks p := by unfold wholeBlocks; omega
  rcases Nat.lt_or_ge (j + len % 32) 32 with hcarry | hcarry
  · have hnext : (i + len / 32) * 32 + (j + len % 32 + 1) = i * 32 + j + len + 1 := by omega
    rcases Nat.lt_or_ge (i + len / 32) (p.size / 32) with hw | hw
    · have hscan := hbits (i + len / 32) (j + len % 32 + 1) (by omega) hw (by omega) (by omega)
      rw [hnext] at hscan
      refine (hscan (Or.inl hused)).skip_run hrun (by omega) (Nat.le_refl _) (Or.inl ?_)
      change i * 32 + j + len < wholeBlocks p
      unfold wholeBlocks
      omega
    · have hword : i + len / 32 = p.size / 32 := by omega
      rw [hword]
      refine regionBits_enter hn hinl hlast (by omega) hrun hat hwhole ?_ (by omega) ?_
      · unfold wholeBlocks
        omega
      · unfold wholeBlocks
        omega
  · -- the loop ends in the word before that of the used block, which is then scanned from its first bit
    rw [regionBits_end (by omega), ok_bind]
    have hword : (i + len / 32 + 1) * 32 ≤ i * 32 + j + len := by omega
    refine Scan.skip_run (hinr (i + len / 32) (by omega) ?_) hrun (by omega) (by omega) (Or.inr ?_)
    · by_cases he : i * 32 + j + len < wholeBlocks p
      · exact Or.inr (Or.inr ⟨i * 32 + j + len, hword, he, hused⟩)
      · exact Or.inr (Or.inl (by unfold wholeBlocks at *; omega))
    · change ¬ (i * 32 + j) % 32 ≤ (i * 32 + j + len) % 32
      omega

/-- **The bit loop** in a whole word, and what the word loop does after it. -/
theorem regionBits_scan {k : Nat ⊕ Nat → Kernel Nat} (hn : 2 ≤ n) (hinl : ∀ s, k (.inl s) = .ok s)
    (hlast : k (.inr (p.size / 32)) = .ok 0) (hr : 32 ≤ j + g) (hi : i < p.size / 32) (hj : j ≤ 32)
    (hinr : ∀ i' ≥ i, ProbesAt p ((i' + 1) * 32) → Scan (regionScan p) n .assertion ((i' + 1) * 32) (k (.inr i')))
    (hat : ProbesAt p (i * 32 + j)) :
    Scan (regionScan p) n .assertion (i * 32 + j) (regionBits p n g i j >>= k) := by
  induction g generalizing i j with
  | zero =>
    obtain rfl : j = 32 := by omega
    rw [show i * 32 + 32 = (i + 1) * 32 by omega] at hat ⊢
    exact hinr i (Nat.le_refl i) hat
  | succ g ih =>
    rcases Nat.lt_or_ge j 32 with hj32 | hj32
    swap
    · obtain rfl : j = 32 := by omega
      rw [regionBits_end (Nat.le_refl 32), ok_bind, show i * 32 + 32 = (i + 1) * 32 by omega] at *
      exact hinr i (Nat.le_refl i) hat
    have hwhole : i * 32 + j < wholeBlocks p := by unfold wholeBlocks; omega
    unfold regionBits
    rw [if_pos hj32]
    by_cases hbit : p.words i &&& BitVec.twoPow 32 j ≠ 0#32
    · rw [if_pos hbit]
      have hu : p.used (i * 32 + j) = true := (and_twoPow_iff hj32).1 hbit
      exact (ih (j := j + 1) (by omega) hi (by omega) hinr (Or.inl hu)).skip_used (by omega) (not_free_iff.2 hu)
    · rw [if_neg hbit]
      have hfree : p.used (i * 32 + j) = false := not_used_of_and hj32 (not_not.1 hbit)
      change Scan (regionScan p) n .assertion (i * 32 + j) ((regionLength p (i * 32 + j) 1 (n - 1) >>= _) >>= k)
      rcases regionLength_cases hn hfree with ⟨hfit, hr⟩ | ⟨e, hshort, hlt, hr⟩ | ⟨htail, hsize, hr⟩
      · simp only [hr, ok_bind, if_pos, pure, Except.pure, hinl]
        exact Scan.found hfit hwhole
      · have hlen := hshort.short
        simp only [hr, ok_bind, if_neg (show e - (i * 32 + j) ≠ n by omega)]
        obtain ⟨len, rfl⟩ := Nat.exists_eq_add_of_le hshort.le
        rw [Nat.add_sub_cancel_left]
        exact regionBits_after hn hinl hlast (by omega) hi hj32 hinr hat hshort
          fun i' j' h1 h2 h3 h4 => ih (by omega) h2 h3 fun i'' h5 => hinr i'' (by omega)
      · simp only [hr, error_bind]
        exact Scan.out htail hwhole hsize (by omega)

/-- What the word loop does with the result of the bit loop. -/
def afterBits (p : BlockMap) (n g : Nat) : Nat ⊕ Nat → Kernel Nat
  | .inl start => pure start
  | .inr i => regionWords p n g (i + 1)

/-- **The word loop**: `pmm_find_region` for two blocks or more is a first-fit scan. -/
theorem regionWords_scan (hn : 2 ≤ n) (hr : p.size / 32 ≤ i + g) (hat : ProbesAt p (i * 32)) :
    Scan (regionScan p) n .assertion (i * 32) (regionWords p n g i) := by
  induction g generalizing i with
  | zero => exact Scan.done (Nat.mul_le_mul_right 32 hr)
  | succ g ih =>
    unfold regionWords
    rcases Nat.lt_or_ge i (p.size / 32) with hi | hi
    swap
    · rw [if_neg (by omega)]
      exact Scan.done (Nat.mul_le_mul_right 32 hi)
    rw [if_pos hi]
    by_cases hfull : p.words i = 0xFFFFFFFF
    · rw [if_pos hfull]
      have hused : ∀ b, i * 32 ≤ b → b < (i + 1) * 32 → p.used b = true := fun b h1 h2 => used_of_full hfull h1 h2
      have hscan := ih (i := i + 1) (by omega) (Or.inl (hused _ (by omega) (by omega)))
      exact Scan.skip_all_used (by omega) hscan (by omega) fun b h1 h2 => not_free_iff.2 (hused b h1 h2)
    · rw [if_neg hfull]
      have hscan := regionBits_scan (k := afterBits p n g) (g := 32) (j := 0) hn (fun s => rfl)
        (regionWords_end (by omega)) (by omega) hi (by omega) (fun i' hi' hat' => ih (by omega) hat') hat
      exact hscan

/-- The bit loop of `pmm_find_first_free` returns the first clear bit. -/
theorem firstClear_spec {rest : Nat} (hj : j + rest = 32) :
    (∃ b, firstClear (p.words i) j rest = some b ∧ b < 32 ∧ p.used (i * 32 + b) = false ∧
        ∀ k, j ≤ k → k < b → p.used (i * 32 + k) = true) ∨
      (firstClear (p.words i) j rest = none ∧ ∀ k, j ≤ k → k < 32 → p.used (i * 32 + k) = true) := by
  induction rest generalizing j with
  | zero => exact Or.inr ⟨rfl, fun k h1 h2 => by omega⟩
  | succ rest ih =>
    unfold firstClear
    by_cases hbit : p.words i &&& BitVec.twoPow 32 j = 0#32
    · rw [if_pos hbit]
      exact Or.inl ⟨j, rfl, by omega, not_used_of_and (by omega) hbit, fun k h1 h2 => by omega⟩
    · rw [if_neg hbit]
      have hu : p.used (i * 32 + j) = true := (and_twoPow_iff (by omega)).1 hbit
      have hextend : ∀ b, (∀ k, j + 1 ≤ k → k < b → p.used (i * 32 + k) = true) →
          ∀ k, j ≤ k → k < b → p.used (i * 32 + k) = true := by
        intro b hb k h1 h2
        rcases Nat.eq_or_lt_of_le h1 with rfl | h
        · exact hu
        · exact hb k h h2
      rcases ih (j := j + 1) (by omega) with ⟨b, hb, hlt, hfree, hused⟩ | ⟨hb, hused⟩
      · exact Or.inl ⟨b, hb, hlt, hfree, hextend b hused⟩
      · exact Or.inr ⟨hb, hextend 32 hused⟩

/-- `pmm_find_first_free` is a first-fit scan for one block. -/
theorem firstFreeFrom_scan (hr : i + g = p.size / 32) :
    Scan (regionScan p) 1 Failure.assertion (i * 32) (.ok (firstFreeFrom p i g)) := by
  induction g generalizing i with
  | zero => exact Scan.done (Nat.mul_le_mul_right 32 (Nat.le_of_eq hr.symm))
  | succ g ih =>
    unfold firstFreeFrom
    have hnext := ih (i := i + 1) (by omega)
    have hskip : (∀ b, i * 32 ≤ b → b < (i + 1) * 32 → p.used b = true) →
        Scan (regionScan p) 1 Failure.assertion (i * 32) (.ok (firstFreeFrom p (i + 1) g)) :=
      fun hused => Scan.skip_all_used (by omega) hnext (by omega) fun b h1 h2 => not_free_iff.2 (hused b h1 h2)
    by_cases hfull : p.words i = 0xFFFFFFFF
    · rw [if_pos hfull]
      exact hskip fun b h1 h2 => used_of_full hfull h1 h2
    · rw [if_neg hfull]
      have hclear := firstClear_spec (p := p) (i := i) (show 0 + 32 = 32 by omega)
      rcases hclear with ⟨b, hb, hlt, hfree, hused⟩ | ⟨hb, hused⟩
      swap
      · rw [hb]
        refine hskip fun b h1 h2 => ?_
        have := hused (b - i * 32) (by omega) (by omega)
        rwa [show i * 32 + (b - i * 32) = b by omega] at this
      · rw [hb]
        have hwhole : i * 32 + b < wholeBlocks p := by unfold wholeBlocks; omega
        have hfit : Fit (blockCells p) 1 (i * 32 + b) := by
          intro k hk
          rw [show i * 32 + b + k = i * 32 + b by omega]
          exact ⟨show i * 32 + b < p.size by unfold wholeBlocks at hwhole; omega, free_iff.2 hfree⟩
        refine Scan.skip_all_used (q := i * 32 + b) (by omega) (Scan.found hfit hwhole) (by omega) fun c h1 h2 => ?_
        have := hused (c - i * 32) (by omega) (by omega)
        rw [show i * 32 + (c - i * 32) = c by omega] at this
        exact not_free_iff.2 this

/-- `pmm_find_region` is a first-fit scan. -/
theorem pmmFindRegion_scan (hn : n ≠ 0) (hzero : p.used 0 = true) :
    Scan (regionScan p) n .assertion 0 (pmmFindRegion p n) := by
  unfold pmmFindRegion
  rw [assert_bind hn]
  split
  · rename_i h1
    subst h1
    have hscan := firstFreeFrom_scan (p := p) (i := 0) (g := p.size / 32) (by omega)
    rwa [Nat.zero_mul] at hscan
  · have hscan := regionWords_scan (p := p) (n := n) (i := 0) (g := p.size / 32) (by omega) (by omega)
      (Or.inl (by rwa [Nat.zero_mul]))
    rwa [Nat.zero_mul] at hscan

end Loops

/-! ## Single blocks -/

/-- The free blocks of the whole words: those that an allocation of one block can take. -/
def freeBlocks (p : BlockMap) : Nat := countBelow (wholeBlocks p) fun b => !p.used b

section Single

variable {p q : BlockMap} {b : Nat}

/-- The search for one block. -/
theorem pmmFindRegion_one (hzero : p.used 0 = true) :
    (∃ b, b < wholeBlocks p ∧ p.used b = false ∧ pmmFindRegion p 1 = .ok b) ∨
      ((∀ b < wholeBlocks p, p.used b = true) ∧ pmmFindRegion p 1 = .ok 0) := by
  have hscan := pmmFindRegion_scan (p := p) (show 1 ≠ 0 by omega) hzero
  have hr : pmmFindRegion p 1 = .ok (pmmFindFirstFree p) := by
    unfold pmmFindRegion
    rw [assert_bind (by omega), if_pos rfl]
    rfl
  rcases firstFreeFrom_free (p := p) (p.size / 32) 0 with hnone | ⟨hlt, hfree⟩
  · rw [show pmmFindFirstFree p = 0 from hnone] at hr
    rw [hr] at hscan
    refine Or.inr ⟨fun b hb => ?_, hr⟩
    by_contra hu
    have hfit : Fit (blockCells p) 1 b := by
      intro k hk
      rw [show b + k = b by omega]
      exact ⟨show b < p.size by unfold wholeBlocks at hb; omega, free_iff.2 (by simpa using hu)⟩
    rcases hscan with ⟨s, -, hf, -, -, hs⟩ | ⟨hall, -, -⟩ | ⟨-, -, hs⟩
    · obtain rfl := Except.ok.inj hs
      exact absurd (free_iff.1 (hf.free_at (e := 0) (Nat.le_refl 0) (by omega))) (by simp [hzero])
    · exact absurd (hall b (Nat.zero_le b) hfit).1 (Nat.not_le.2 hb)
    · cases hs
  · refine Or.inl ⟨_, ?_, hfree, hr⟩
    rwa [Nat.zero_add] at hlt

/-- **One block** is taken from the whole words, or there is none. -/
theorem pmmAllocBlocksSafe_one (hzero : p.used 0 = true) :
    (∃ b q, b < wholeBlocks p ∧ p.used b = false ∧ pmmAllocBlocksSafe p 1 = .ok (b * 4096, q) ∧ q.size = p.size ∧
        ∀ c, q.used c = (p.used c || decide (c = b))) ∨
      ((∀ b < wholeBlocks p, p.used b = true) ∧ pmmAllocBlocksSafe p 1 = .error .assertion) := by
  rcases pmmFindRegion_one hzero with ⟨b, hb, hfree, hfind⟩ | ⟨hall, hfind⟩
  · have hsize : b < p.size := by unfold wholeBlocks at hb; omega
    have hle := p.size_le
    have hb0 : b ≠ 0 := by
      rintro rfl
      rw [hzero] at hfree
      cases hfree
    obtain ⟨q, hq⟩ : ∃ q, pmmSetBlock p b = .ok q := by
      unfold pmmSetBlock
      rw [assert_bind hsize]
      exact ⟨_, rfl⟩
    obtain ⟨-, hqs, hqu⟩ := pmmSetBlock_ok hq
    refine Or.inl ⟨b, q, hb, hfree, ?_, hqs, hqu⟩
    have haddr : b * 4096 % 0x100000000 = b * 4096 := Nat.mod_eq_of_lt (by omega)
    simp only [pmmAllocBlocksSafe, pmmAllocBlocks, hfind, ok_bind, if_neg hb0, forRange, Nat.add_zero, hq, haddr,
      assert_pos (show 1 ≠ 0 by omega), assert_pos (show b * 4096 ≠ 0 by omega), pure, Except.pure]
  · refine Or.inr ⟨hall, ?_⟩
    simp only [pmmAllocBlocksSafe, pmmAllocBlocks, hfind, ok_bind, if_true, assert_pos (show 1 ≠ 0 by omega), pure,
      Except.pure, assert_neg (not_not.2 rfl), error_bind]

/-- Marking a free block of the whole words. -/
theorem freeBlocks_mark (hs : q.size = p.size) (hu : ∀ c, q.used c = (p.used c || decide (c = b)))
    (hb : b < wholeBlocks p) (hfree : p.used b = false) : freeBlocks q + 1 = freeBlocks p := by
  have hwhole : wholeBlocks q = wholeBlocks p := by unfold wholeBlocks; rw [hs]
  have hqb : q.used b = true := by simp [hu]
  have hcount := countBelow_update (P := fun b => !p.used b) (Q := fun b => !q.used b) hb fun c hc => by simp [hu, hc]
  unfold freeBlocks
  rw [hwhole]
  simpa [hqb, hfree] using hcount

theorem freeBlocks_eq_zero (h : ∀ b < wholeBlocks p, p.used b = true) : freeBlocks p = 0 :=
  countBelow_eq_zero fun b hb => by simp [h b hb]

end Single

/-- **First fit.** With block 0 used, `pmm_find_region(size)` returns the first region of `size` free blocks below
`block_map_size`, or 0 when there is none, exactly when the first such region starts below the whole words' end or a run
that is too short leads the scan behind it, and, when there is no such region, no clear bit that the scan looks at has
only free blocks behind it. -/
theorem pmm_find_region_first_fit (p : BlockMap) (size : Nat) (hs : size ≠ 0) (hzero : p.used 0 = true) :
    ((∃ s, Fit (blockCells p) size s ∧ (∀ t < s, ¬ Fit (blockCells p) size t) ∧ pmmFindRegion p size = .ok s) ∨
        ((∀ s, ¬ Fit (blockCells p) size s) ∧ pmmFindRegion p size = .ok 0)) ↔
      (∀ s, Fit (blockCells p) size s → (∀ t < s, ¬ Fit (blockCells p) size t) →
          s < wholeBlocks p ∨ Enters (regionScan p) 0) ∧
        ((∀ s, ¬ Fit (blockCells p) size s) → ¬ RunsOut (regionScan p) 0) :=
  (pmmFindRegion_scan hs hzero).first_fit hs (not_free_iff.2 hzero)

/-- 64 blocks, of which the first is used. -/
def mostlyFree : BlockMap := ⟨fun i => if i = 0 then 1#32 else 0#32, 64, Nat.le_of_ble_eq_true rfl⟩

/-- Three blocks are found behind block 0. -/
theorem pmm_find_region_three :
    (∃ s, Fit (blockCells mostlyFree) 3 s ∧ (∀ t < s, ¬ Fit (blockCells mostlyFree) 3 t) ∧
        pmmFindRegion mostlyFree 3 = .ok s) ∨
      ((∀ s, ¬ Fit (blockCells mostlyFree) 3 s) ∧ pmmFindRegion mostlyFree 3 = .ok 0) := by
  have hfit : Fit (blockCells mostlyFree) 3 1 := by
    unfold Fit
    decide
  refine (pmm_find_region_first_fit mostlyFree 3 (by decide) rfl).2 ⟨fun s _ hfirst => Or.inl ?_, fun hno => ?_⟩
  · have hle : s ≤ 1 := Nat.le_of_not_lt fun hlt => hfirst 1 hlt hfit
    exact Nat.lt_of_le_of_lt hle (by decide)
  · exact absurd hfit (hno 1)

/-- 32 blocks, of which the last is free. -/
def lastFree : BlockMap := ⟨fun _ => 0x7FFFFFFF#32, 32, Nat.le_of_ble_eq_true rfl⟩

/-- The probe for a second block leaves the map. -/
theorem pmm_find_region_leaves_map :
    ¬ ((∃ s, Fit (blockCells lastFree) 2 s ∧ (∀ t < s, ¬ Fit (blockCells lastFree) 2 t) ∧
        pmmFindRegion lastFree 2 = .ok s) ∨
      ((∀ s, ¬ Fit (blockCells lastFree) 2 s) ∧ pmmFindRegion lastFree 2 = .ok 0)) := by
  have hr : pmmFindRegion lastFree 2 = .error .assertion := by rfl
  rw [hr]
  rintro (⟨s, -, -, h⟩ | ⟨-, h⟩)
  · cases h
  · cases h

end Myunix.Pmm
