import Myunix.Process.Rules

/-!
# Address-space teardown

The last holder's `process_page_directory_free` frees the blocks of the user pages, and returns: it does not call
`page_directory_release`, which alone frees the page tables and the directory. `Pinned` follows the directory's own
block and the kernel page at which it is seen through a whole life of an address space; every step keeps them, the last
release included (`processPageDirectoryFree_pinned`). So `teardown_leaks`: no run gives back what it took.
-/

namespace Myunix.Process

open Lib Pmm Vmm

/-- Block `b` and page `j` of the kernel directory are in use, and no user page of directory `a` is in block `b`. -/
structure Pinned (a b j : Nat) (vm : Vm) : Prop where
  used : vm.pmm.used b = true
  page : vm.entry .kernel j ≠ 0#32
  apart : ∀ m, vm.entry (.user a) m &&& pageUser ≠ 0#32 → frameOf (vm.entry (.user a) m) ≠ b

/-- The entry of a block of its own. -/
theorem frameOf_block {b c : Nat} {f : Word} (hc : c < 0x100000) (hcb : c ≠ b) (hf : f >>> 12 = 0#32) :
    frameOf (BitVec.ofNat 32 (c * 4096) ||| f) ≠ b := by
  rw [frameOf_or hf, frameOf_ofNat hc]
  exact hcb

/-- **What is pinned stays.** A block that is handed out and a kernel page that is taken were free. -/
theorem pinned_rules (a b j : Nat) :
    SpaceRules a (Pinned a b j) (fun n _ => n ≠ j) (fun w => w &&& pageUser ≠ 0#32 → frameOf w ≠ b) where
  alloc h halloc := by
    obtain ⟨c, -, rfl, hfree, -, -, hused⟩ := pmmAllocBlocksSafe_ok halloc
    obtain ⟨hlt, hun⟩ := hfree c ⟨Nat.le_refl c, by omega⟩
    refine ⟨⟨?_, h.page, h.apart⟩, fun f hf _ => frameOf_block ?_ ?_ hf⟩
    · show BlockMap.used _ b = true
      rw [hused, h.used, Bool.true_or]
    · exact Nat.lt_of_lt_of_le hlt (Nat.le_succ_of_le (BlockMap.size_le _))
    · rintro rfl
      rw [h.used] at hun
      cases hun
  noUser w hw hc := absurd hw hc
  fill _ h := ⟨h.used, h.page, h.apart⟩
  free h hfree := by
    rintro rfl
    exact h.page hfree
  mapKernel h hn ht := by
    refine ⟨h.used, ?_, fun m => ?_⟩
    · rw [entry_setEntry ht, if_neg (fun hc => hn hc.2.symm)]
      exact h.page
    · rw [entry_of_dirs dirs_setEntry_kernel]
      exact h.apart m
  setUser h ht hw := by
    refine ⟨h.used, ?_, fun m => ?_⟩
    · rw [entry_setEntry ht, if_neg (fun hc => by cases hc.1)]
      exact h.page
    · rw [entry_setEntry ht]
      split
      · exact hw
      · exact h.apart m
  addTable h hno hadd := by
    obtain ⟨c, -, -, -, -, -, hused⟩ := pmmAllocBlocksSafe_ok hadd.block
    refine ⟨?_, ?_, fun m => ?_⟩
    · rw [hused, h.used, Bool.true_or]
    · rw [hadd.kernel, if_neg fun hc => h.page (by rw [hc]; exact hadd.page_free)]
      exact h.page
    · rw [hadd.entry_same hno]
      exact h.apart m
  refcount h := by
    refine ⟨h.used, ?_, fun m => ?_⟩
    · rw [entry_setRefcount]
      exact h.page
    · rw [entry_setRefcount]
      exact h.apart m
  still _ hn := hn
  grown _ _ hn := hn

section Create

variable {sh : SharedRegions} {s s' vm : Vm} {pdir : DirPtr}

/-- The directory takes a block and a kernel page that were free. -/
theorem pageDirectoryNew_pinned (h : pageDirectoryNew vm = .ok (pdir, s)) :
    ∃ a b j, pdir = .user a ∧ b < vm.pmm.size ∧ vm.pmm.used b = false ∧ j < 0x100000 ∧ vm.entry .kernel j = 0#32 ∧
      Pinned a b j s := by
  obtain ⟨rfl, phys, j, hadd⟩ := pageDirectoryNew_ok h
  obtain ⟨b, -, rfl, hfree, -, -, hused⟩ := pmmAllocBlocksSafe_ok hadd.block
  have hb : InRange b 1 b := ⟨Nat.le_refl b, by omega⟩
  refine ⟨vm.nextDir, b, j, rfl, (hfree b hb).1, (hfree b hb).2, hadd.page_lt, hadd.page_free, ⟨?_, ?_, fun m hm => ?_⟩⟩
  · rw [hused, decide_eq_true hb, Bool.or_true]
  · rw [hadd.page]
    exact ne_zero_of_present (present_of_or _ (by decide))
  · -- the directory has no table yet
    have hzero : s.entry (.user vm.nextDir) m = 0#32 := by
      unfold Vm.entry Vm.pageAt
      simp only [hadd.dir]
    rw [hzero] at hm
    exact absurd hm (by decide)

/-- **A release by one of several holders** only counts down: no block is freed and no kernel page unmapped. -/
theorem processPageDirectoryFree_held {pdir : DirPtr} (hr : (s.dirs pdir).refcount ≠ 1)
    (h : processPageDirectoryFree sh pdir s = .ok s') :
    s' = Process.setRefcount s pdir ((s.dirs pdir).refcount - 1) := by
  unfold processPageDirectoryFree at h
  rw [if_pos hr] at h
  simp only [pageDirectoryRelease, bind_eq_ok] at h
  obtain ⟨-, -, h⟩ := h
  have hcount : ((Process.setRefcount s pdir ((s.dirs pdir).refcount - 1)).dirs pdir).refcount =
      (s.dirs pdir).refcount - 1 := by
    unfold Process.setRefcount
    simp only [Function.update_self]
  rw [hcount, if_neg (by omega), pure_eq_ok] at h
  exact h.symm

end Create

/-! ## The last release -/

/-- Page `m` lies in one of the regions shared with user programs. -/
def SharedPage (sh : SharedRegions) (m : Nat) : Prop :=
  (∃ k < regionRounds sh.startData sh.stopData, m = regionAddr sh.startData k / 4096) ∨
    ∃ k < regionRounds sh.startText sh.stopText, m = regionAddr sh.startText k / 4096

/-- The kernel stacks are unmapped: what is present in the directory, apart from the shared regions, are user pages. -/
def KstacksUnmapped (sh : SharedRegions) (pdir : DirPtr) (vm : Vm) : Prop :=
  ∀ m < 0x100000, vm.entry pdir m &&& pagePresent ≠ 0#32 → SharedPage sh m ∨ vm.entry pdir m &&& pageUser ≠ 0#32

/-- Every page that is present in the directory is a user page. -/
def OnlyUser (a : Nat) (vm : Vm) : Prop :=
  ∀ m < 0x100000, vm.entry (.user a) m &&& pagePresent ≠ 0#32 → vm.entry (.user a) m &&& pageUser ≠ 0#32

section Last

variable {sh : SharedRegions} {a b j k i : Nat} {s s' : Vm}

/-- **`process_unmap_shared_region`** clears the entries of the region and no others. -/
theorem Pinned.unmapShared {start stop : Word} (h : Pinned a b j s)
    (hstep : processUnmapSharedRegion (.user a) start stop s = .ok s') :
    Pinned a b j s' ∧ ∀ m, s'.entry (.user a) m = 0#32 ∨
      s'.entry (.user a) m = s.entry (.user a) m ∧ ∀ k < regionRounds start stop, m ≠ regionAddr start k / 4096 := by
  simp only [processUnmapSharedRegion, bind_eq_ok, assert_eq_ok] at hstep
  obtain ⟨-, -, hloop⟩ := hstep
  rw [← Nat.zero_add (regionRounds start stop)]
  refine forRange_inv (P := fun n u => Pinned a b j u ∧ ∀ m, u.entry (.user a) m = 0#32 ∨
    u.entry (.user a) m = s.entry (.user a) m ∧ ∀ k < n, m ≠ regionAddr start k / 4096) ?_ hloop
    ⟨h, fun m => Or.inr ⟨rfl, fun k hk => absurd hk (Nat.not_lt_zero k)⟩⟩
  rintro n u u' - - ⟨hu, hsame⟩ hstep
  simp only [bind_eq_ok, Prod.exists] at hstep
  obtain ⟨t, u₁, ha, -, -, -, -, t', u₂, ha', hmap⟩ := hstep
  obtain ⟨hu₁, -⟩ := (pinned_rules a b j).tableAlloc hu regionAddr_lt ha
  obtain ⟨hu₂, htab, -⟩ := (pinned_rules a b j).tableAlloc hu₁ regionAddr_lt ha'
  have hgrows := (getTableAlloc_spec (.user a) regionAddr_lt ha).2
  have hgrows' := (getTableAlloc_spec (.user a) regionAddr_lt ha').2
  rw [← htab] at hmap
  refine ⟨(pinned_rules a b j).mapUser hu₂ (fun hc => absurd hc (by decide)) hmap, fun m => ?_⟩
  obtain ⟨-, ht, rfl⟩ := mapPage_ok hmap
  rw [entry_setEntry ht]
  split
  · exact Or.inl (by decide)
  · rename_i hne
    rw [hgrows'.same, hgrows.same]
    rcases hsame m with hzero | ⟨heq, hlt⟩
    · exact Or.inl hzero
    · refine Or.inr ⟨heq, fun k hk => ?_⟩
      rcases Nat.lt_succ_iff_lt_or_eq.1 hk with hk | rfl
      · exact hlt k hk
      · exact fun hm => hne ⟨rfl, hm⟩

/-- **One page.** The block that is freed is that of a user page. -/
theorem Pinned.freePage (h : Pinned a b j s) (ho : OnlyUser a s) (ht : s.HasTable (.user a) k) (hk : k < 1024)
    (hi : i < 1024) (hstep : Process.freePage (.user a) k i s = .ok s') :
    Pinned a b j s' ∧ OnlyUser a s' ∧ s'.HasTable (.user a) k := by
  have hdiv : (k * 1024 + i) / 1024 = k := by omega
  have hmod : (k * 1024 + i) % 1024 = i := by omega
  have hpage : s.pageAt ⟨.user a, k⟩ i = s.entry (.user a) (k * 1024 + i) := by
    unfold Vm.entry
    rw [hdiv, hmod]
  unfold Process.freePage at hstep
  simp only [hpage] at hstep
  split at hstep
  · cases hstep
    exact ⟨h, ho, ht⟩
  · split at hstep
    · rename_i hbits
      simp only [bind_eq_ok, pure_eq_ok] at hstep
      obtain ⟨pmm, hfree, rfl⟩ := hstep
      have huser : s.entry (.user a) (k * 1024 + i) &&& pageUser ≠ 0#32 := by
        intro hno
        have hpres : s.entry (.user a) (k * 1024 + i) &&& pagePresent = 0#32 := by
          by_contra hc
          exact ho _ (by omega) hc hno
        rw [BitVec.and_or_distrib_left, hpres, hno] at hbits
        exact hbits (by decide)
      have hkeep : pmm.used b = true := by
        have happart := h.apart _ huser
        unfold frameOf at happart
        rw [(pmmFreeBlocks_ok hfree).2, h.used, page_toNat, Nat.mul_div_cancel _ (by omega),
          decide_eq_false (fun hc => happart (by unfold InRange at hc; omega))]
        rfl
      rw [setPageAt_eq hi]
      have htk : ({ s with pmm := pmm } : Vm).HasTable (.user a) ((k * 1024 + i) / 1024) := by
        rw [hdiv]
        exact ht
      refine ⟨(pinned_rules a b j).setUser ⟨hkeep, h.page, h.apart⟩ htk fun hc => absurd hc (by decide), fun m hm => ?_,
        hasTable_setEntry.2 ht⟩
      rw [entry_setEntry htk]
      split
      · exact fun hc => absurd hc (by decide)
      · exact ho m hm
    · simp at hstep

/-- **One table.** -/
theorem Pinned.freePages (h : Pinned a b j s) (ho : OnlyUser a s) (hk : k < 1024)
    (hstep : Process.freePages (.user a) k s = .ok s') : Pinned a b j s' ∧ OnlyUser a s' := by
  unfold Process.freePages at hstep
  split at hstep
  · simp only [bind_eq_ok, assert_eq_ok] at hstep
    obtain ⟨-, ht, hloop⟩ := hstep
    have hinv := forRange_keeps (I := fun u => Pinned a b j u ∧ OnlyUser a u ∧ u.HasTable (.user a) k)
      (fun i u u' _ hi hu hstep => hu.1.freePage hu.2.1 hu.2.2 hk (by omega) hstep) hloop
      ⟨h, ho, Option.isSome_iff_exists.1 ht⟩
    exact ⟨hinv.1, hinv.2.1⟩
  · simp only [bind_eq_ok, pure_eq_ok] at hstep
    obtain ⟨-, -, rfl⟩ := hstep
    exact ⟨h, ho⟩

/-- **The last release** frees the blocks of the user pages: the block of the directory is none of them. -/
theorem processPageDirectoryFree_pinned (h : Pinned a b j s) (hr : (s.dirs (.user a)).refcount = 1)
    (hk : KstacksUnmapped sh (.user a) s) (hstep : processPageDirectoryFree sh (.user a) s = .ok s') :
    Pinned a b j s' := by
  unfold processPageDirectoryFree at hstep
  rw [if_neg (fun hc => hc hr)] at hstep
  simp only [bind_eq_ok] at hstep
  obtain ⟨s₁, hdata, s₂, htext, hloop⟩ := hstep
  obtain ⟨h₁, hsame₁⟩ := h.unmapShared hdata
  obtain ⟨h₂, hsame₂⟩ := h₁.unmapShared htext
  have hzero : 0#32 &&& pagePresent = 0#32 := by decide
  have ho : OnlyUser a s₂ := by
    intro m hlt hm
    rcases hsame₂ m with h0 | ⟨heq₂, hno₂⟩
    · exact absurd (by rw [h0, hzero]) hm
    · rw [heq₂] at hm ⊢
      rcases hsame₁ m with h0 | ⟨heq₁, hno₁⟩
      · exact absurd (by rw [h0, hzero]) hm
      · rw [heq₁] at hm ⊢
        -- the pages of the two regions are cleared
        rcases hk m hlt hm with (⟨n, hn, hmn⟩ | ⟨n, hn, hmn⟩) | huser
        · exact absurd hmn (hno₁ n hn)
        · exact absurd hmn (hno₂ n hn)
        · exact huser
  exact (forRange_keeps (I := fun u => Pinned a b j u ∧ OnlyUser a u)
    (fun i u u' _ hi hu hstep => hu.1.freePages hu.2 (by omega) hstep) hloop ⟨h₂, ho⟩).1

end Last

/-! ## Whole lives -/

/-- `process_page_directory_free` before the end is called by one of several holders. -/
def SpaceOp.Meets (pdir : DirPtr) (vm : Vm) : SpaceOp → Prop
  | .execve _ _ | .mmap _ _ _ | .mapKstack _ | .unmapKstack _ | .reference => True
  | .free => (vm.dirs pdir).refcount ≠ 1

/-- The blocks in use and the kernel pages in use are the same. -/
structure Conserved (vm vm' : Vm) : Prop where
  blocks : ∀ c, vm'.pmm.used c = vm.pmm.used c
  pages : ∀ n < 0x100000, vm'.entry .kernel n ≠ 0#32 ↔ vm.entry .kernel n ≠ 0#32

section Runs

variable {sh : SharedRegions} {a b j : Nat} {s s' vm vm₁ vm₂ vm₃ : Vm} {pdir : DirPtr}

/-- A new address space pins a block and a kernel page that were free. -/
theorem newSpace_pinned {old : Option DirPtr} (h : newSpace sh old vm = .ok (pdir, s)) :
    ∃ a b j, pdir = .user a ∧ b < vm.pmm.size ∧ vm.pmm.used b = false ∧ j < 0x100000 ∧ vm.entry .kernel j = 0#32 ∧
      Pinned a b j s := by
  cases old with
  | none =>
    simp only [newSpace, processPageDirectoryNew, bind_eq_ok, pure_eq_ok, Prod.exists, Prod.mk.injEq] at h
    obtain ⟨d, s₁, hnew, s₂, hmap, rfl, rfl⟩ := h
    obtain ⟨a, b, j, rfl, hb, hfree, hj, hpage, hpin⟩ := pageDirectoryNew_pinned hnew
    exact ⟨a, b, j, rfl, hb, hfree, hj, hpage, (pinned_rules a b j).mapShared hpin hmap⟩
  | some old =>
    simp only [newSpace, clonePageDirectory, bind_eq_ok, pure_eq_ok, Prod.exists, Prod.mk.injEq] at h
    obtain ⟨d, s₁, hnew, s₂, hclone, s₃, hmap, rfl, rfl⟩ := h
    obtain ⟨a, b, j, rfl, hb, hfree, hj, hpage, hpin⟩ := pageDirectoryNew_pinned hnew
    exact ⟨a, b, j, rfl, hb, hfree, hj, hpage, (pinned_rules a b j).mapShared ((pinned_rules a b j).clone hpin hclone) hmap⟩

/-- **One step.** -/
theorem spaceStep_pinned (op : SpaceOp) (h : Pinned a b j s) (hop : op.Meets (.user a) s)
    (hstep : spaceStep sh (.user a) s op = .ok s') : Pinned a b j s' := by
  by_cases hfree : op = .free
  · subst hfree
    rw [processPageDirectoryFree_held hop hstep]
    exact (pinned_rules a b j).refcount h
  · exact (pinned_rules a b j).step h hfree hstep

/-- **Every run.** -/
theorem runSteps_pinned (ops : List SpaceOp) (h : Pinned a b j s)
    (hops : StepsMeet (spaceStep sh (.user a)) (SpaceOp.Meets (.user a)) s ops)
    (hrun : runSteps (spaceStep sh (.user a)) s ops = .ok s') : Pinned a b j s' :=
  runSteps_keeps (fun _ op _ hs hop hstep => spaceStep_pinned op hs hop hstep) ops h hops hrun

/-- **No address space is given back.** However a directory is made and whatever is mapped into it, the last release
leaves a block in use and a kernel page mapped that were free before; releases before the last one change neither. -/
theorem teardown_leaks {old : Option DirPtr} {ops : List SpaceOp} (hnew : newSpace sh old vm = .ok (pdir, vm₁))
    (hops : StepsMeet (spaceStep sh pdir) (SpaceOp.Meets pdir) vm₁ ops)
    (hrun : runSteps (spaceStep sh pdir) vm₁ ops = .ok vm₂) (hlast : (vm₂.dirs pdir).refcount = 1)
    (hk : KstacksUnmapped sh pdir vm₂) (hfree : processPageDirectoryFree sh pdir vm₂ = .ok vm₃) :
    ¬ Conserved vm vm₃ ∧ (∃ b < vm.pmm.size, vm.pmm.used b = false ∧ vm₃.pmm.used b = true) ∧
      (∃ n < 0x100000, vm.entry .kernel n = 0#32 ∧ vm₃.entry .kernel n ≠ 0#32) ∧
      ∀ u u', (u.dirs pdir).refcount ≠ 1 → processPageDirectoryFree sh pdir u = .ok u' →
        u'.pmm = u.pmm ∧ ∀ n, u'.entry .kernel n = u.entry .kernel n := by
  obtain ⟨a, b, j, rfl, hb, hfreeb, hj, hpage, hpin⟩ := newSpace_pinned hnew
  have hend := processPageDirectoryFree_pinned (runSteps_pinned ops hpin hops hrun) hlast hk hfree
  refine ⟨fun hc => ?_, ⟨b, hb, hfreeb, hend.used⟩, ⟨j, hj, hpage, hend.page⟩, fun u u' hu hstep => ?_⟩
  · have hsame := hc.blocks b
    rw [hfreeb, hend.used] at hsame
    cases hsame
  · rw [processPageDirectoryFree_held hu hstep]
    exact ⟨rfl, fun n => entry_setRefcount⟩

end Runs

/-- One page of shared data and one of shared text. -/
def twoPages : SharedRegions := ⟨0x1000#32, 0x2000#32, 0x2000#32, 0x3000#32⟩

/-- A page is mapped, and a second holder comes and goes. -/
def twoHolders : List SpaceOp := [.mmap 0#32 0x1000#32 3#32, .reference, .free]

/-- This run of the machine of `forkVm`, with the last release. The directory is in block 2. -/
theorem twoHolders_run : ∃ vm₁ vm₂ vm₃, newSpace twoPages none forkVm = .ok (.user 1, vm₁) ∧
    StepsMeet (spaceStep twoPages (.user 1)) (SpaceOp.Meets (.user 1)) vm₁ twoHolders ∧
    runSteps (spaceStep twoPages (.user 1)) vm₁ twoHolders = .ok vm₂ ∧ (vm₂.dirs (.user 1)).refcount = 1 ∧
    KstacksUnmapped twoPages (.user 1) vm₂ ∧ processPageDirectoryFree twoPages (.user 1) vm₂ = .ok vm₃ ∧
    vm₃.pmm.used 2 = true := by
  obtain ⟨vm₁, hnew, s₁, hmmap, s₂, href, vm₂, hfree, hnot, hlast, htables, hpages, hend⟩ :
      ∃ vm₁, newSpace twoPages none forkVm = .ok (.user 1, vm₁) ∧
      ∃ s₁, spaceStep twoPages (.user 1) vm₁ (.mmap 0#32 0x1000#32 3#32) = .ok s₁ ∧
      ∃ s₂, spaceStep twoPages (.user 1) s₁ .reference = .ok s₂ ∧
      ∃ vm₂, spaceStep twoPages (.user 1) s₂ .free = .ok vm₂ ∧ (s₂.dirs (.user 1)).refcount ≠ 1 ∧
        (vm₂.dirs (.user 1)).refcount = 1 ∧ (∀ k < 1024, 1 ≤ k → ((vm₂.dirs (.user 1)).tables k).isNone) ∧
        (∀ m < 1024, vm₂.entry (.user 1) m &&& pagePresent ≠ 0#32 →
          (m = 1 ∨ m = 2) ∨ vm₂.entry (.user 1) m &&& pageUser ≠ 0#32) ∧
        (match processPageDirectoryFree twoPages (.user 1) vm₂ with
          | .ok vm₃ => vm₃.pmm.used 2
          | .error _ => false) = true :=
    ⟨_, rfl, _, rfl, _, rfl, _, rfl, by decide +kernel, by decide +kernel, by decide +kernel, by decide +kernel,
      by decide +kernel⟩
  have hmeet : StepsMeet (spaceStep twoPages (.user 1)) (SpaceOp.Meets (.user 1)) vm₁ twoHolders :=
    stepsMeet_cons trivial hmmap (stepsMeet_cons trivial href (stepsMeet_cons hnot hfree trivial))
  have hrun : runSteps (spaceStep twoPages (.user 1)) vm₁ twoHolders = .ok vm₂ :=
    (runSteps_cons hmmap).trans ((runSteps_cons href).trans (runSteps_cons hfree))
  have hk : KstacksUnmapped twoPages (.user 1) vm₂ := by
    intro m hm hpres
    by_cases hlt : m < 1024
    · rcases hpages m hlt hpres with (rfl | rfl) | huser
      · exact Or.inl (Or.inl ⟨0, by decide, by decide⟩)
      · exact Or.inl (Or.inr ⟨0, by decide, by decide⟩)
      · exact Or.inr huser
    · -- the directory has no other table
      have hnone := Option.isNone_iff_eq_none.1 (htables (m / 1024) (by omega) (by omega))
      unfold Vm.entry Vm.pageAt at hpres
      simp only [hnone] at hpres
      exact absurd (by decide) hpres
  cases hx : processPageDirectoryFree twoPages (.user 1) vm₂ with
  | error e =>
    rw [hx] at hend
    cases hend
  | ok vm₃ =>
    rw [hx] at hend
    exact ⟨vm₁, vm₂, vm₃, hnew, hmeet, hrun, hlast, hk, hx, hend⟩

/-- A kernel page of that run stays mapped. -/
theorem teardown_leaks_two_holders : ∃ vm₁ vm₂ vm₃, newSpace twoPages none forkVm = .ok (.user 1, vm₁) ∧
    runSteps (spaceStep twoPages (.user 1)) vm₁ twoHolders = .ok vm₂ ∧
    processPageDirectoryFree twoPages (.user 1) vm₂ = .ok vm₃ ∧
    ∃ n < 0x100000, forkVm.entry .kernel n = 0#32 ∧ vm₃.entry .kernel n ≠ 0#32 := by
  obtain ⟨vm₁, vm₂, vm₃, hnew, hmeet, hrun, hlast, hk, hfree, -⟩ := twoHolders_run
  exact ⟨vm₁, vm₂, vm₃, hnew, hrun, hfree, (teardown_leaks hnew hmeet hrun hlast hk hfree).2.2.1⟩

/-- **The block of the directory is not given back** in that run. -/
theorem teardown_not_conserved : ∃ vm₁ vm₂ vm₃, newSpace twoPages none forkVm = .ok (.user 1, vm₁) ∧
    StepsMeet (spaceStep twoPages (.user 1)) (SpaceOp.Meets (.user 1)) vm₁ twoHolders ∧
    runSteps (spaceStep twoPages (.user 1)) vm₁ twoHolders = .ok vm₂ ∧ (vm₂.dirs (.user 1)).refcount = 1 ∧
    KstacksUnmapped twoPages (.user 1) vm₂ ∧ processPageDirectoryFree twoPages (.user 1) vm₂ = .ok vm₃ ∧
    ¬ Conserved forkVm vm₃ := by
  obtain ⟨vm₁, vm₂, vm₃, hnew, hmeet, hrun, hlast, hk, hfree, hused⟩ := twoHolders_run
  refine ⟨vm₁, vm₂, vm₃, hnew, hmeet, hrun, hlast, hk, hfree, fun hc => ?_⟩
  have hsame := hc.blocks 2
  rw [hused] at hsame
  exact absurd hsame (by decide)

end Myunix.Process
