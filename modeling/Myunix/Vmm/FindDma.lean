import Myunix.Pmm.FindRegion
import Myunix.Vmm.Dma

/-!
# Which region `vmm_find_dma_region` returns

`vmm_find_dma_region` scans the block map for blocks that are free and whose page at the same address is unmapped. It
should find a region when there is one, and return 0 when there is none.

After a run that is too short the word index advances by `len / 32`, and the bit index, a `uint8_t`, by `len` itself. So
a run of 32 blocks or more usually ends the bit loop, and the rest of the word in which it ends is not looked at
(`Jumps`). Where no free block is jumped over (`NoJump`), the loops are a first-fit scan: `dmaBits_scan`,
`dmaWords_scan`. As in `pmm_find_region` the last, partial word is looked at only when a run leads into it; here that
needs the bit index to wrap, and the scan then leaves the map.
-/

namespace Myunix.Vmm

open Lib Pmm

/-- The blocks below `block_map_size`; those that are not used and not mapped at their own address are free. -/
def dmaCells (vm : Vm) : Cells where
  free b := !vm.pmm.used b && decide (vm.entry .kernel b = 0#32)
  size := vm.pmm.size

/-- The bit index behind a run from `t` to `e`. -/
def bitBehind (t e : Nat) : Nat := (t % 32 + (e - t) + 1) % 256

/-- The scan of `vmm_find_dma_region`: a run from `t` to `e` leads into the last, partial word when the bit of `e` is
not below that of `t` and the bit index has wrapped. -/
def dmaScan (vm : Vm) : ScanMap where
  toCells := dmaCells vm
  whole := wholeBlocks vm.pmm
  leads t e := t % 32 ≤ e % 32 ∧ bitBehind t e < 32
  ends := True

/-- After a run from `t` to `e` the scan goes on behind the word of `e`. -/
structure Jumps (t e : Nat) : Prop where
  long : 32 ≤ e - t
  bits : t % 32 ≤ e % 32
  index : 32 ≤ bitBehind t e

/-- No run before the first region makes the scan jump over a free block. -/
def NoJump (vm : Vm) (size : Nat) : Prop :=
  ∀ t e b, (dmaCells vm).free (t - 1) = false → ShortRun (dmaCells vm) size t e →
    (∀ s ≤ e, ¬ Fit (dmaCells vm) size s) → Jumps t e → e < b → b / 32 = e / 32 → b < vm.pmm.size →
      (dmaCells vm).free b = false

/-- Every table of the kernel directory is there. -/
def HasKernelTables (vm : Vm) : Prop := ∀ k < 1024, vm.HasTable .kernel k

/-- A search for at most 32 blocks never jumps. -/
theorem noJump_of_le {vm : Vm} {size : Nat} (h : size ≤ 32) : NoJump vm size := by
  intro t e b _ hrun _ hjumps
  have hshort := hrun.short
  have hlong := hjumps.long
  omega

section Loops

variable {vm : Vm} {n i j g : Nat}

theorem dma_free_of_used {b : Nat} (h : vm.pmm.used b = true) : (dmaCells vm).free b = false := by
  simp [dmaCells, h]

/-- The `while` loop is a probe. -/
theorem dmaLength_probe {b len rest : Nat} (hk : HasKernelTables vm) (hn : len + rest = n) :
    Probe (dmaCells vm) n .assertion b len (dmaLength vm b rest len) := by
  induction rest generalizing len with
  | zero =>
    subst hn
    exact Probe.done
  | succ rest ih =>
    unfold dmaLength
    by_cases hlt : b + len < vm.pmm.size
    · simp only [pmmTestBlock_eq hlt, ok_bind]
      cases hu : vm.pmm.used (b + len) with
      | true =>
        exact Probe.stop (by omega) hlt (dma_free_of_used hu)
      | false =>
        have hle := vm.pmm.size_le
        have haddr : (b + len) * 4096 % 0x100000000 = (b + len) * 4096 := Nat.mod_eq_of_lt (by omega)
        have htable : getTable vm ((b + len) * 4096) .kernel = some ⟨.kernel, (b + len) * 4096 / 0x400000⟩ :=
          getTable_eq_some.2 ⟨hk _ (by omega), rfl⟩
        have hpage : (b + len) * 4096 / 4096 = b + len := by omega
        simp only [haddr, htable, getPage_table, ok_bind, hpage, Bool.false_eq_true, if_false]
        by_cases hentry : vm.entry .kernel (b + len) = 0#32
        · rw [if_neg (not_not.2 hentry)]
          exact Probe.more (by omega) hlt (by simp [dmaCells, hu, hentry]) (ih (by omega))
        · rw [if_pos hentry]
          exact Probe.stop (by omega) hlt (by simp [dmaCells, hentry])
    · have hfail : pmmTestBlock vm.pmm (b + len) = .error .assertion := by
        simp only [pmmTestBlock, assert_neg hlt, error_bind]
      simp only [hfail, error_bind]
      exact Probe.out (by omega) (Nat.le_of_not_lt hlt)

/-- What the `while` loop returns. -/
theorem dmaLength_cases (hk : HasKernelTables vm) (hn : n ≠ 0) (pos : Nat) :
    (Fit (dmaCells vm) n pos ∧ dmaLength vm pos n 0 = .ok n) ∨
      (∃ e, ShortRun (dmaCells vm) n pos e ∧ dmaLength vm pos n 0 = .ok (e - pos)) ∨
      ((∀ b, pos ≤ b → b < vm.pmm.size → (dmaCells vm).free b = true) ∧ vm.pmm.size < pos + n ∧
        dmaLength vm pos n 0 = .error .assertion) := by
  have hprobe := dmaLength_probe (b := pos) hk (Nat.zero_add n)
  rcases hprobe.cases (fun b h1 h2 => by omega) (Or.inl (by omega)) with hfit | ⟨e, hshort, -, hr⟩ | hout
  · exact Or.inl hfit
  · exact Or.inr (Or.inl ⟨e, hshort, hr⟩)
  · exact Or.inr (Or.inr hout)

/-- The bit loop in the last, partial word. -/
theorem dmaBits_last {k : Nat ⊕ Nat → Kernel Nat} (hk : HasKernelTables vm) (hn : n ≠ 0)
    (hinl : ∀ s, k (.inl s) = .ok s) (hr : vm.pmm.size < wholeBlocks vm.pmm + j + g)
    (hj : wholeBlocks vm.pmm + j ≤ vm.pmm.size) :
    ScanLast (dmaScan vm) n .assertion (wholeBlocks vm.pmm + j) (dmaBits vm n g (vm.pmm.size / 32) j >>= k) := by
  induction g generalizing j with
  | zero => omega
  | succ g ih =>
    have hsize : vm.pmm.size < wholeBlocks vm.pmm + 32 := by unfold wholeBlocks; omega
    unfold dmaBits
    rw [if_pos (by omega)]
    change ScanLast (dmaScan vm) n .assertion (wholeBlocks vm.pmm + j)
      ((dmaLength vm (wholeBlocks vm.pmm + j) n 0 >>= _) >>= k)
    rcases dmaLength_cases hk hn (wholeBlocks vm.pmm + j) with ⟨hfit, hr⟩ | ⟨e, hshort, hr⟩ | ⟨-, hout, hr⟩
    · simp only [hr, ok_bind, if_pos, pure, Except.pure, hinl]
      exact ScanLast.found hfit
    · have hle := hshort.le
      have hlen := hshort.short
      have hbelow : e < vm.pmm.size := hshort.below
      -- the run ends in the same word, and the bit index does not wrap
      have hword : (e - (wholeBlocks vm.pmm + j)) / 32 = 0 := by omega
      have hbit : (j + (e - (wholeBlocks vm.pmm + j)) + 1) % 256 = e + 1 - wholeBlocks vm.pmm := by omega
      have hnext : wholeBlocks vm.pmm + (e + 1 - wholeBlocks vm.pmm) = e + 1 := by omega
      simp only [hr, ok_bind, if_neg (show e - (wholeBlocks vm.pmm + j) ≠ n by omega), hword, hbit, Nat.add_zero]
      have hscan := ih (j := e + 1 - wholeBlocks vm.pmm) (by omega) (by omega)
      rw [hnext] at hscan
      exact hscan.pass (hshort.passedOver (by omega) (Nat.le_refl _))
    · simp only [hr, error_bind]
      exact Or.inr (Or.inr ⟨no_fit_of_size_lt hout hn, trivial, rfl⟩)

/-- Where the loops probe: behind a block that is not free, or less than a word before one. -/
def ProbesDma (vm : Vm) (pos : Nat) : Prop :=
  (dmaCells vm).free (pos - 1) = false ∨ ∃ e, pos ≤ e ∧ e < pos + 32 ∧ (dmaCells vm).free e = false

/-- A run of a word or more has a block before it that is not free. -/
theorem ProbesDma.before {pos e : Nat} (hat : ProbesDma vm pos) (hrun : ShortRun (dmaCells vm) n pos e)
    (hlong : 32 ≤ e - pos) : (dmaCells vm).free (pos - 1) = false := by
  rcases hat with hu | ⟨e', h1, h2, hu⟩
  · exact hu
  · have hfree := hrun.run e' h1 (by omega)
    rw [hu] at hfree
    cases hfree

/-- The four places at which the loops go on after a run of `l` blocks from bit `j` of word `i`: behind it, a word
before that, in the word in which it ends, and behind that word. -/
theorem dma_next {l : Nat} (hj : j < 32) :
    ((j + l + 1) % 256 < 32 ∧ (i + l / 32) * 32 + (j + l + 1) % 256 = i * 32 + j + l + 1 ∧
        j ≤ (i * 32 + j + l) % 32) ∨
      ((j + l + 1) % 256 < 32 ∧ (i + l / 32) * 32 + (j + l + 1) % 256 + 31 = i * 32 + j + l ∧ 32 ≤ l) ∨
      (32 ≤ (j + l + 1) % 256 ∧ i + l / 32 + 1 = (i * 32 + j + l) / 32 ∧ (i * 32 + j + l) % 32 < j) ∨
      (32 ≤ (j + l + 1) % 256 ∧ i + l / 32 = (i * 32 + j + l) / 32 ∧ j ≤ (i * 32 + j + l) % 32 ∧
        ((i * 32 + j + l) % 32 = 31 ∨ 32 ≤ l)) := by
  omega

theorem dmaBits_end (hj : 32 ≤ j) : dmaBits vm n g i j = .ok (.inr i) := by
  cases g with
  | zero => rfl
  | succ g =>
    unfold dmaBits
    rw [if_neg (by omega)]

/-- Without a fit before `pos`, and from there to `q`, there is none before `q`. -/
theorem no_fit_before {pos q : Nat} (hno : ∀ s < pos, ¬ Fit (dmaCells vm) n s)
    (hpass : PassedOver (dmaCells vm) n pos q) (s : Nat) (hs : s < q) : ¬ Fit (dmaCells vm) n s := by
  rcases Nat.lt_or_ge s pos with h | h
  · exact hno s h
  · exact hpass.no_fit s h hs

/-- Behind a run that ends the bit loop in its own word, the rest of the word is not free. -/
theorem rest_not_free {pos e : Nat} (hjump : NoJump vm n) (hat : ProbesDma vm pos)
    (hno : ∀ s < pos, ¬ Fit (dmaCells vm) n s) (hrun : ShortRun (dmaCells vm) n pos e)
    (hindex : 32 ≤ bitBehind pos e) (hbits : pos % 32 ≤ e % 32) (hend : e % 32 = 31 ∨ 32 ≤ e - pos) {b : Nat}
    (hb : e < b) (hword : b < (e / 32 + 1) * 32) (hbelow : b < vm.pmm.size) : (dmaCells vm).free b = false := by
  rcases hend with hend | hlong
  · omega
  · have hpass := hrun.passedOver (q := e + 1) (by have := hrun.le; omega) (Nat.le_refl _)
    exact hjump pos e b (hat.before hrun hlong) hrun (fun s hs => no_fit_before hno hpass s (by omega))
      ⟨hlong, hbits, hindex⟩ hb (by omega) hbelow

section Runs

variable {pos e : Nat} {r : Kernel Nat}

/-- A run after which the bit index has wrapped leads into the last word. -/
theorem dmaBits_enter {k : Nat ⊕ Nat → Kernel Nat} (hk : HasKernelTables vm) (hn : n ≠ 0)
    (hinl : ∀ s, k (.inl s) = .ok s) (hr : vm.pmm.size < e + 1 + g) (hat : ProbesDma vm pos)
    (hrun : ShortRun (dmaCells vm) n pos e) (hlong : 32 ≤ e - pos) (hstart : pos < wholeBlocks vm.pmm)
    (hstop : wholeBlocks vm.pmm ≤ e) (hbits : pos % 32 ≤ e % 32) (hindex : bitBehind pos e < 32)
    (hj : wholeBlocks vm.pmm + j = e + 1) :
    Scan (dmaScan vm) n .assertion pos (dmaBits vm n g (vm.pmm.size / 32) j >>= k) := by
  have hbelow : e < vm.pmm.size := hrun.below
  have hscan := dmaBits_last (j := j) (g := g) hk hn hinl (by omega) (by omega)
  rw [hj] at hscan
  exact Scan.enter hscan hrun
    ⟨hstart, hstop, hrun.below, hat.before hrun hlong, hrun.run, hrun.behind, ⟨hbits, hindex⟩⟩

/-- A run after which the scan goes on behind the word in which it ends. -/
theorem scan_behind_word (hn : n ≠ 0) (hjump : NoJump vm n) (hat : ProbesDma vm pos)
    (hno : ∀ s < pos, ¬ Fit (dmaCells vm) n s) (hrun : ShortRun (dmaCells vm) n pos e)
    (hindex : 32 ≤ bitBehind pos e) (hbits : pos % 32 ≤ e % 32) (hend : e % 32 = 31 ∨ 32 ≤ e - pos)
    (hstop : e < wholeBlocks vm.pmm)
    (hscan : ProbesDma vm ((e / 32 + 1) * 32) → (∀ s < (e / 32 + 1) * 32, ¬ Fit (dmaCells vm) n s) →
      Scan (dmaScan vm) n .assertion ((e / 32 + 1) * 32) r) : Scan (dmaScan vm) n .assertion pos r := by
  have hle := hrun.le
  have hpass := hrun.passedOver (q := e + 1) (by omega) (Nat.le_refl _)
  have hsize : (e / 32 + 1) * 32 ≤ vm.pmm.size := by
    unfold wholeBlocks at hstop
    omega
  have hrest : ∀ b, e < b → b < (e / 32 + 1) * 32 → (dmaCells vm).free b = false := by
    intro b h1 h2
    exact rest_not_free hjump hat hno hrun hindex hbits hend h1 h2 (by omega)
  have hused : ∀ b, e ≤ b → b < (e / 32 + 1) * 32 → (dmaCells vm).free b = false := by
    intro b h1 h2
    rcases Nat.eq_or_lt_of_le h1 with rfl | h
    · exact hrun.behind
    · exact hrest b h h2
  have hno' : ∀ s < (e / 32 + 1) * 32, ¬ Fit (dmaCells vm) n s := by
    intro s hs hf
    rcases Nat.lt_or_ge s (e + 1) with h | h
    · exact no_fit_before hno hpass s h hf
    · have hfree := hf.free_at (e := s) (Nat.le_refl s) (by omega)
      rw [hused s (by omega) hs] at hfree
      cases hfree
  have hnext := hscan (Or.inl (hused _ (by omega) (by omega))) hno'
  exact Scan.skip_run (Scan.skip_all_used (by omega) hnext hn hrest) hrun (by omega) (Nat.le_refl _) (Or.inl hstop)

/-- A run after which the scan goes on in the word in which it ends, or less than a word before its end. -/
theorem scan_back {q : Nat} (hno : ∀ s < pos, ¬ Fit (dmaCells vm) n s) (hrun : ShortRun (dmaCells vm) n pos e)
    (hle : pos ≤ q) (hq : q ≤ e) (hnear : e < q + 32) (hlead : e < wholeBlocks vm.pmm ∨ e % 32 < pos % 32)
    (hscan : ProbesDma vm q → (∀ s < q, ¬ Fit (dmaCells vm) n s) → Scan (dmaScan vm) n .assertion q r) :
    Scan (dmaScan vm) n .assertion pos r := by
  have hpass := hrun.passedOver hle (Nat.le_succ_of_le hq)
  have hnext := hscan (Or.inr ⟨e, hq, hnear, hrun.behind⟩) (no_fit_before hno hpass)
  refine hnext.skip_run hrun hle (Nat.le_succ_of_le hq) (hlead.imp_right fun hlt hleads => ?_)
  have hbits : pos % 32 ≤ e % 32 := hleads.1
  omega

end Runs

/-- The bit loop after a run that is too short. -/
theorem dmaBits_after {k : Nat ⊕ Nat → Kernel Nat} {l : Nat} (hk : HasKernelTables vm) (hn : n ≠ 0)
    (hjump : NoJump vm n) (hinl : ∀ s, k (.inl s) = .ok s)
    (hlast : ∀ i', vm.pmm.size / 32 ≤ i' → k (.inr i') = .ok 0) (hr : vm.pmm.size < i * 32 + j + 1 + g)
    (hi : i < vm.pmm.size / 32) (hj : j < 32)
    (hinr : ∀ i' ≥ i, ProbesDma vm ((i' + 1) * 32) → (∀ s < (i' + 1) * 32, ¬ Fit (dmaCells vm) n s) →
      Scan (dmaScan vm) n .assertion ((i' + 1) * 32) (k (.inr i')))
    (hat : ProbesDma vm (i * 32 + j)) (hno : ∀ s < i * 32 + j, ¬ Fit (dmaCells vm) n s)
    (hrun : ShortRun (dmaCells vm) n (i * 32 + j) (i * 32 + j + l))
    (hbits : ∀ i' j', i ≤ i' → i * 32 + j < i' * 32 + j' → i' < vm.pmm.size / 32 → j' < 32 →
      ProbesDma vm (i' * 32 + j') → (∀ s < i' * 32 + j', ¬ Fit (dmaCells vm) n s) →
        Scan (dmaScan vm) n .assertion (i' * 32 + j') (dmaBits vm n g i' j' >>= k)) :
    Scan (dmaScan vm) n .assertion (i * 32 + j)
      (dmaBits vm n g (i + l / 32) ((j + l + 1) % 256) >>= k) := by
  have hbelow : i * 32 + j + l < vm.pmm.size := hrun.below
  have hbehind : bitBehind (i * 32 + j) (i * 32 + j + l) = (j + l + 1) % 256 := by unfold bitBehind; omega
  have hpos : (i * 32 + j) % 32 = j := by omega
  have hstart : i * 32 + j < wholeBlocks vm.pmm := by unfold wholeBlocks; omega
  rcases dma_next (i := i) (l := l) hj with ⟨hq, hnext, hle⟩ | ⟨hq, hnext, hlong⟩ | ⟨hq, hword, hlt⟩ |
    ⟨hq, hword, hle, hend⟩
  · rcases Nat.lt_or_ge (i + l / 32) (vm.pmm.size / 32) with hw | hw
    · have hpass := hrun.passedOver (q := i * 32 + j + l + 1) (by omega) (Nat.le_refl _)
      have hscan := hbits (i + l / 32) ((j + l + 1) % 256) (by omega) (by omega) hw hq
      rw [hnext] at hscan
      have hscan := hscan (Or.inl hrun.behind) (no_fit_before hno hpass)
      refine hscan.skip_run hrun (by omega) (Nat.le_refl _) (Or.inl (show _ < wholeBlocks vm.pmm from ?_))
      unfold wholeBlocks
      omega
    · have hword : i + l / 32 = vm.pmm.size / 32 := by omega
      rw [hword]
      have hstop : wholeBlocks vm.pmm ≤ i * 32 + j + l := by unfold wholeBlocks; omega
      apply dmaBits_enter hk hn hinl (by omega) hat hrun (by omega) hstart hstop (by omega) (by omega)
      unfold wholeBlocks
      omega
  · refine scan_back hno hrun (q := (i + l / 32) * 32 + (j + l + 1) % 256) (by omega) (by omega) (by omega) ?_ ?_
    · rw [hpos]
      unfold wholeBlocks
      omega
    · exact hbits (i + l / 32) ((j + l + 1) % 256) (by omega) (by omega) (by omega) hq
  · rw [dmaBits_end hq, ok_bind]
    refine scan_back hno hrun (q := (i + l / 32 + 1) * 32) (by omega) (by omega) (by omega) (Or.inr ?_) ?_
    · omega
    · exact hinr (i + l / 32) (by omega)
  · rw [dmaBits_end hq, ok_bind]
    rcases Nat.lt_or_ge (i + l / 32) (vm.pmm.size / 32) with hw | hw
    · have hstop : i * 32 + j + l < wholeBlocks vm.pmm := by unfold wholeBlocks; omega
      apply scan_behind_word hn hjump hat hno hrun (by omega) (by omega) (by omega) hstop
      rw [← hword]
      exact hinr (i + l / 32) (by omega)
    · rw [hlast _ hw]
      have hstop : wholeBlocks vm.pmm ≤ i * 32 + j + l := by unfold wholeBlocks; omega
      apply Scan.skip_run (Scan.done (Nat.le_succ_of_le hstop)) hrun (by omega) (Nat.le_refl _)
      apply Or.inr
      intro hleads
      have hindex : bitBehind (i * 32 + j) (i * 32 + j + l) < 32 := hleads.2
      omega

/-- **The bit loop** in a whole word, and what the word loop does after it. -/
theorem dmaBits_scan {k : Nat ⊕ Nat → Kernel Nat} (hk : HasKernelTables vm) (hn : n ≠ 0) (hjump : NoJump vm n)
    (hinl : ∀ s, k (.inl s) = .ok s) (hlast : ∀ i', vm.pmm.size / 32 ≤ i' → k (.inr i') = .ok 0)
    (hr : vm.pmm.size < i * 32 + j + g) (hi : i < vm.pmm.size / 32) (hj : j < 32)
    (hinr : ∀ i' ≥ i, ProbesDma vm ((i' + 1) * 32) → (∀ s < (i' + 1) * 32, ¬ Fit (dmaCells vm) n s) →
      Scan (dmaScan vm) n .assertion ((i' + 1) * 32) (k (.inr i')))
    (hat : ProbesDma vm (i * 32 + j)) (hno : ∀ s < i * 32 + j, ¬ Fit (dmaCells vm) n s) :
    Scan (dmaScan vm) n .assertion (i * 32 + j) (dmaBits vm n g i j >>= k) := by
  induction g generalizing i j with
  | zero => omega
  | succ g ih =>
    have hwhole : i * 32 + j < wholeBlocks vm.pmm := by unfold wholeBlocks; omega
    unfold dmaBits
    rw [if_pos hj]
    change Scan (dmaScan vm) n .assertion (i * 32 + j) ((dmaLength vm (i * 32 + j) n 0 >>= _) >>= k)
    rcases dmaLength_cases hk hn (i * 32 + j) with ⟨hfit, hr⟩ | ⟨e, hshort, hr⟩ | ⟨htail, hout, hr⟩
    · simp only [hr, ok_bind, if_pos, pure, Except.pure, hinl]
      exact Scan.found hfit hwhole
    · have hlen := hshort.short
      simp only [hr, ok_bind, if_neg (show e - (i * 32 + j) ≠ n by omega)]
      obtain ⟨l, rfl⟩ := Nat.exists_eq_add_of_le hshort.le
      rw [Nat.add_sub_cancel_left]
      exact dmaBits_after hk hn hjump hinl hlast (by omega) hi hj hinr hat hno hshort
        fun i' j' h1 h2 h3 h4 => ih (by omega) h3 h4 fun i'' h5 => hinr i'' (by omega)
    · simp only [hr, error_bind]
      have hpos : i * 32 + j < vm.pmm.size := by unfold wholeBlocks at hwhole; omega
      exact Scan.out ⟨htail _ (Nat.le_refl _) hpos, htail⟩ hwhole hout hn

/-- What the word loop does with the result of the bit loop. -/
def afterDmaBits (vm : Vm) (n g : Nat) : Nat ⊕ Nat → Kernel Nat
  | .inl start => pure start
  | .inr i => dmaWords vm n g (i + 1)

theorem dmaWords_end (hi : vm.pmm.size / 32 ≤ i) : dmaWords vm n g i = .ok 0 := by
  cases g with
  | zero => rfl
  | succ g =>
    unfold dmaWords
    rw [if_neg (by omega)]

/-- **The word loop.** -/
theorem dmaWords_scan (hk : HasKernelTables vm) (hn : n ≠ 0) (hjump : NoJump vm n) (hr : vm.pmm.size / 32 ≤ i + g)
    (hat : ProbesDma vm (i * 32)) (hno : ∀ s < i * 32, ¬ Fit (dmaCells vm) n s) :
    Scan (dmaScan vm) n .assertion (i * 32) (dmaWords vm n g i) := by
  induction g generalizing i with
  | zero => exact Scan.done (Nat.mul_le_mul_right 32 hr)
  | succ g ih =>
    unfold dmaWords
    rcases Nat.lt_or_ge i (vm.pmm.size / 32) with hi | hi
    swap
    · rw [if_neg (by omega)]
      exact Scan.done (Nat.mul_le_mul_right 32 hi)
    rw [if_pos hi]
    by_cases hfull : vm.pmm.words i = 0xFFFFFFFF
    · rw [if_pos hfull]
      have hused : ∀ b, i * 32 ≤ b → b < (i + 1) * 32 → (dmaCells vm).free b = false :=
        fun b h1 h2 => dma_free_of_used (used_of_full hfull h1 h2)
      have hno' : ∀ s < (i + 1) * 32, ¬ Fit (dmaCells vm) n s := by
        intro s hs hf
        rcases Nat.lt_or_ge s (i * 32) with h | h
        · exact hno s h hf
        · have hfree := hf.free_at (e := s) (Nat.le_refl s) (by omega)
          rw [hused s h hs] at hfree
          cases hfree
      have hscan := ih (i := i + 1) (by omega) (Or.inl (hused _ (by omega) (by omega))) hno'
      exact Scan.skip_all_used (by omega) hscan hn hused
    · rw [if_neg hfull]
      have hscan := dmaBits_scan (k := afterDmaBits vm n g) (g := vm.pmm.size + 1) (j := 0) hk hn hjump (fun s => rfl)
        (fun i' hi' => dmaWords_end (by omega)) (by omega) hi (by omega)
        (fun i' hi' => ih (i := i' + 1) (by omega)) hat hno
      exact hscan

/-- `vmm_find_dma_region` is a first-fit scan when it jumps over no free block. -/
theorem vmmFindDmaRegion_scan (hk : HasKernelTables vm) (hn : n ≠ 0) (hjump : NoJump vm n)
    (hzero : vm.pmm.used 0 = true) : Scan (dmaScan vm) n .assertion 0 (vmmFindDmaRegion vm n) := by
  unfold vmmFindDmaRegion
  rw [assert_bind hn]
  have hscan := dmaWords_scan (i := 0) (g := vm.pmm.size / 32) hk hn hjump (by omega)
    (Or.inl (dma_free_of_used (by rwa [Nat.zero_mul]))) (fun s hs => by omega)
  rwa [Nat.zero_mul] at hscan

end Loops

/-- **Regions for devices.** Where no run jumps over a free block before the first region, `vmm_find_dma_region(size)`
returns a region of blocks that are free and unmapped when there is one, and 0 when there is none, exactly when the
first region starts below the end of the whole words, or behind it with the bit index wrapping into the last word, and,
when there is none, no run that the scan looks at reaches the end of the map. -/
theorem vmm_find_dma_region_finds (vm : Vm) (size : Nat) (hs : size ≠ 0) (hzero : vm.pmm.used 0 = true)
    (hk : HasKernelTables vm) (hjump : NoJump vm size) :
    ((∃ s, Fit (dmaCells vm) size s ∧ vmmFindDmaRegion vm size = .ok s) ∨
        ((∀ s, ¬ Fit (dmaCells vm) size s) ∧ vmmFindDmaRegion vm size = .ok 0)) ↔
      (∀ s, Fit (dmaCells vm) size s → (∀ t < s, ¬ Fit (dmaCells vm) size t) →
          s < wholeBlocks vm.pmm ∨ Enters (dmaScan vm) 0) ∧
        ((∀ s, ¬ Fit (dmaCells vm) size s) → ¬ RunsOut (dmaScan vm) 0) := by
  have hscan := vmmFindDmaRegion_scan hk hs hjump hzero
  have hzero' : (dmaScan vm).free 0 = false := dma_free_of_used hzero
  refine Iff.trans (or_congr_left ⟨?_, ?_⟩) (hscan.first_fit hs hzero')
  · rintro ⟨s, hf, hr⟩
    rw [hr] at hscan
    exact ⟨s, hf, hscan.is_first hs hzero' hf, hr⟩
  · rintro ⟨s, hf, -, hr⟩
    exact ⟨s, hf, hr⟩

/-- Three blocks of the small machine. -/
theorem vmm_find_dma_region_three :
    (∃ s, Fit (dmaCells smallVm) 3 s ∧ vmmFindDmaRegion smallVm 3 = .ok s) ∨
      ((∀ s, ¬ Fit (dmaCells smallVm) 3 s) ∧ vmmFindDmaRegion smallVm 3 = .ok 0) := by
  have hfit : Fit (dmaCells smallVm) 3 1 := by
    unfold Fit
    decide
  have hiff := vmm_find_dma_region_finds smallVm 3 (by decide) rfl (fun k _ => ⟨_, rfl⟩) (noJump_of_le (by decide))
  refine hiff.2 ⟨fun s _ hfirst => Or.inl ?_, fun hno => ?_⟩
  · have hle : s ≤ 1 := Nat.le_of_not_lt fun hlt => hfirst 1 hlt hfit
    exact Nat.lt_of_le_of_lt hle (by decide)
  · exact absurd hfit (hno 1)

/-- A machine with 96 blocks, of which blocks 0, 33 and 74 to 95 are used. -/
def holedVm : Vm := { smallVm with
  pmm := ⟨fun i => if i = 0 then 1#32 else if i = 1 then 2#32 else 0xFFFFFC00#32, 96, Nat.le_of_ble_eq_true rfl⟩ }

/-- The 32 blocks before block 33 make the search for 40 blocks jump over block 34, where the only region starts. -/
theorem vmm_find_dma_region_jumps :
    ¬ ((∃ s, Fit (dmaCells holedVm) 40 s ∧ vmmFindDmaRegion holedVm 40 = .ok s) ∨
      ((∀ s, ¬ Fit (dmaCells holedVm) 40 s) ∧ vmmFindDmaRegion holedVm 40 = .ok 0)) := by
  have hr : vmmFindDmaRegion holedVm 40 = .ok 0 := by rfl
  have hfit : Fit (dmaCells holedVm) 40 34 := by
    unfold Fit
    decide
  rintro (⟨s, hf, h⟩ | ⟨hno, -⟩)
  · rw [hr] at h
    obtain rfl := Except.ok.inj h
    exact absurd (hf.free_at (e := 0) (by decide) (by decide)) (by decide)
  · exact hno 34 hfit

end Myunix.Vmm
