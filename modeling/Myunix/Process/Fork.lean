import Myunix.Process.Isolation

/-!
# Fork isolation

The loops of `page_directory_clone` keep the invariant `Cloned`, page by page (`cloneEntry_cloned`) and table by table
(`cloneTable_cloned`). `fork_isolates` is the result for `page_directory_new` followed by `page_directory_clone`: the
child has a copy of every user page of the parent in a frame of its own, and no later write of one of them is seen by
the other.
-/

namespace Myunix.Process

open Lib Pmm Vmm

/-! ## One page -/

/-- Through an entry made by `map_page` the kernel reaches the frame of the address. -/
theorem kernelFrame_of_entry {s : Vm} {v : Nat} {x : Word}
    (h : s.entry .kernel (v / 4096) = x ||| (pagePresent ||| pageReadwrite)) : kernelFrame s v = .ok (frameOf x) := by
  unfold kernelFrame
  rw [h]
  simp only
  rw [if_neg (present_of_or _ (by decide))]
  have hframe := @frameOf_or x (pagePresent ||| pageReadwrite) (by decide)
  unfold frameOf at hframe ⊢
  rw [hframe]
  rfl

/-- The machine after a page with entry `page` has been copied to block `b` through the scratch pages `a` and `a'`. -/
def copyPage (s : Vm) (a a' b : Nat) (page : Word) (pmm : BlockMap) : Vm :=
  { (({ s with pmm := pmm } : Vm).setEntry .kernel a
      (BitVec.ofNat 32 (page &&& ~~~ 0x3FF#32).toNat ||| (pagePresent ||| pageReadwrite))).setEntry .kernel a'
      (BitVec.ofNat 32 (b * 4096) ||| (pagePresent ||| pageReadwrite)) with
    frames := Function.update s.frames b (s.frames (frameOf page)) }

section Entry

variable {vm s s' : Vm} {p c n a a' : Nat} {nt ot : TablePtr} {i : Nat}

/-- **Inversion.** One round of `page_directory_clone_table` passes a page by, or copies a user page to a new block. -/
theorem cloneEntry_ok (h : cloneEntry nt ot (a * 4096) (a' * 4096) i s = .ok s') (haa : a ≠ a') :
    (¬ (s.pageAt ot i &&& pagePresent ≠ 0#32 ∧ s.pageAt ot i &&& pageUser ≠ 0#32) ∧ s' = s) ∨
      (s.pageAt ot i &&& pagePresent ≠ 0#32 ∧ s.pageAt ot i &&& pageUser ≠ 0#32 ∧
        s.HasTable .kernel (a / 1024) ∧ s.HasTable .kernel (a' / 1024) ∧
        ∃ b pmm, pmmAllocBlocksSafe s.pmm 1 = .ok (b * 4096, pmm) ∧ b < s.pmm.size ∧ s.pmm.used b = false ∧
          s' = (copyPage s a a' b (s.pageAt ot i) pmm).setPageAt nt i (copyEntry b (s.pageAt ot i))) := by
  unfold cloneEntry at h
  simp only at h
  split at h
  · rename_i h0
    cases h
    exact Or.inl ⟨fun hc => hc.1 (by rw [h0]; decide), rfl⟩
  · split at h
    · rename_i hguard
      cases h
      exact Or.inl ⟨fun hc => hc.1 (by rw [hguard]; decide), rfl⟩
    · split at h
      · simp at h
      · split at h
        · rename_i hkernel
          cases h
          exact Or.inl ⟨fun hc => hc.2 hkernel.2, rfl⟩
        · split at h
          · rename_i huser
            simp only [bind_eq_ok, pure_eq_ok, Prod.exists] at h
            obtain ⟨-, -, newphys, pmm, halloc, s₁, hmap, -, -, s₂, hmap', -, -, s₃, hcpy, rfl⟩ := h
            obtain ⟨b, -, rfl, hfree, -, -, -⟩ := pmmAllocBlocksSafe_ok halloc
            obtain ⟨hlt, hun⟩ := hfree b ⟨Nat.le_refl b, by omega⟩
            have hle := s.pmm.size_le
            obtain ⟨-, ht, rfl⟩ := mapPage_ok hmap
            obtain ⟨-, ht', rfl⟩ := mapPage_ok hmap'
            have ha : a * 4096 / 4096 = a := Nat.mul_div_cancel a (by decide)
            have ha' : a' * 4096 / 4096 = a' := Nat.mul_div_cancel a' (by decide)
            rw [ha] at ht
            rw [ha, ha'] at ht'
            simp only [ha, ha'] at hcpy
            simp only [memcpyPage, bind_eq_ok, pure_eq_ok] at hcpy
            obtain ⟨f, hf, f', hf', rfl⟩ := hcpy
            -- the old page is seen at `a`, which the second mapping leaves alone
            rw [kernelFrame_of_entry (by rw [ha, entry_setEntry ht', if_neg (fun hc => haa hc.2), entry_setEntry ht,
              if_pos ⟨rfl, rfl⟩]), frameOf_mask, Except.ok.injEq] at hf
            rw [kernelFrame_of_entry (by rw [ha', entry_setEntry ht', if_pos ⟨rfl, rfl⟩]), frameOf_ofNat (by omega),
              Except.ok.injEq] at hf'
            subst hf hf'
            exact Or.inr ⟨huser.1, huser.2, ht, hasTable_setEntry.1 ht', b, pmm, halloc, hlt, hun, rfl⟩
          · simp at h

/-- The copy of one page keeps the invariant, and has the page's contents. -/
theorem copyPage_cloned {e : Word} {b : Nat} {pmm : BlockMap}
    (h : Cloned vm p c n (fun m => m = a ∨ m = a') s) (ht : s.HasTable .kernel (a / 1024))
    (ht' : s.HasTable .kernel (a' / 1024)) (halloc : pmmAllocBlocksSafe s.pmm 1 = .ok (b * 4096, pmm))
    (hlt : b < s.pmm.size) (hun : s.pmm.used b = false) (hframe : vm.pmm.used (frameOf e) = true) :
    Cloned vm p c n (fun m => m = a ∨ m = a') (copyPage s a a' b e pmm) ∧
      CopiedTo vm (copyPage s a a' b e pmm) e b := by
  obtain ⟨b', -, hbb, -, -, hsize, hu⟩ := pmmAllocBlocksSafe_ok halloc
  have hb' : b' = b := by omega
  subst hb'
  have hle := s.pmm.size_le
  have hks : KernelOnly (fun m => m = a ∨ m = a') ({ s with pmm := pmm } : Vm)
      { copyPage s a a' b' e pmm with frames := s.frames } :=
    KernelOnly.trans (kernelOnly_setEntry ht) (kernelOnly_setEntry (hasTable_setEntry.2 ht'))
  refine ⟨h.frame hsize (fun f hf => ?_) hks.dirs (fun f hf => ?_) (fun m hc hs => ?_) (fun m hc => ?_),
    by omega, ?_, ?_, ?_⟩
  · have hpmm : (copyPage s a a' b' e pmm).pmm.used f = pmm.used f := rfl
    rw [hpmm, hu, hf, Bool.true_or]
  · have hne : f ≠ b' := by
      rintro rfl
      rw [hun] at hf
      exact Bool.noConfusion hf
    exact Function.update_of_ne hne _ _
  · exact (hks.kernel m hs).trans (h.kernel_same m hc hs)
  · exact ⟨(h.kernel_new m hc).1, hks.kernel m (h.kernel_new m hc).1⟩
  · cases hold : vm.pmm.used b' with
    | false => rfl
    | true =>
      rw [h.used b' hold] at hun
      exact Bool.noConfusion hun
  · have hpmm : (copyPage s a a' b' e pmm).pmm.used b' = pmm.used b' := rfl
    rw [hpmm, hu, decide_eq_true (by unfold InRange; omega), Bool.or_true]
  · exact (Function.update_self _ _ _).trans (h.frames _ hframe)

/-- **One page** of the parent, in a table that is present. -/
theorem cloneEntry_cloned (hpc : p ≠ c) (hframes : ∀ e, UserPage vm (.user p) n e → vm.pmm.used (frameOf e) = true)
    (hpde : (vm.dirs (.user p)).physicalTables (n / 1024) &&& pagePresent ≠ 0#32) (haa : a ≠ a')
    (h : Cloned vm p c n (fun m => m = a ∨ m = a') s) (ht : s.HasTable (.user c) (n / 1024))
    (hstep : cloneEntry ⟨.user c, n / 1024⟩ ⟨.user p, n / 1024⟩ (a * 4096) (a' * 4096) (n % 1024) s = .ok s') :
    Cloned vm p c (n + 1) (fun m => m = a ∨ m = a') s' ∧ s'.HasTable (.user c) (n / 1024) := by
  have hpage : s.pageAt ⟨.user p, n / 1024⟩ (n % 1024) = vm.entry (.user p) n := entry_of_dirs (h.others p hpc) n
  rcases cloneEntry_ok hstep haa with ⟨hno, rfl⟩ | ⟨hpres, huser, hta, hta', b, pmm, halloc, hlt, hun, rfl⟩
  · refine ⟨h.skip (fun m hm hm' e he => hno ?_) (Nat.le_succ n), ht⟩
    have hmn : m = n := by omega
    rw [hmn] at he
    rw [hpage, he.entry]
    exact ⟨he.present, he.user⟩
  · rw [hpage] at hpres huser ⊢
    have hup : UserPage vm (.user p) n (vm.entry (.user p) n) := ⟨hpde, rfl, hpres, huser⟩
    obtain ⟨hcl, hcopy⟩ := copyPage_cloned h hta hta' halloc hlt hun (hframes _ hup)
    have hdirs : (copyPage s a a' b (vm.entry (.user p) n) pmm).dirs (.user c) = s.dirs (.user c) := by
      unfold copyPage
      simp only
      rw [dirs_setEntry_kernel, dirs_setEntry_kernel]
    have ht' := (hasTable_of_dirs hdirs (n / 1024)).2 ht
    refine ⟨hcl.store ht' hup hcopy fun m hne heq => ?_, hasTable_setEntry.2 ht'⟩
    -- frames of the child's entries are in use, the new block was not
    rw [entry_of_dirs hdirs] at hne heq
    obtain ⟨e', b', -, -, hb', hent⟩ := h.copy_of_ne hne
    rw [hent, frameOf_copyEntry hb'.lt] at heq
    rw [← heq, hb'.used] at hun
    exact Bool.noConfusion hun

end Entry

/-! ## One table -/

/-- The two scratch pages of `page_directory_clone_table` are different pages. -/
def ScratchApart (s : Vm) : Prop :=
  ∀ v s₁ v' s₂, findVspace .kernel 1 s = .ok (v, s₁) → findVspace .kernel 1 s₁ = .ok (v', s₂) → v ≠ v'

section Table

variable {vm s s' : Vm} {p c k : Nat}

/-- A scratch page was free, and nothing else changes when it is taken. -/
theorem scratch_page {v : Nat} (h : findVspace .kernel 1 s = .ok (v, s')) (hal : v % 1024 = 0) :
    ∃ a, v = a * 4096 ∧ a < 0x100000 ∧ s.entry .kernel a = 0#32 ∧ KernelOnly (· = a) s s' := by
  rw [findVspace_kernel] at h
  rcases findVspaceKernel_one h with ⟨rfl, -⟩ | ⟨a, -, hlt, hv, hfree, ⟨-, rfl⟩ | ⟨-, ht, rfl⟩⟩
  · exact absurd hal (by decide)
  · exact ⟨a, hv, hlt, hfree, ⟨rfl, rfl, fun _ => rfl, fun _ _ => rfl⟩⟩
  · exact ⟨a, hv, hlt, hfree, kernelOnly_setEntry ht⟩

/-- Scratch pages are different as long as a page below the last one is free. -/
theorem scratchApart_of_free {j : Nat} (h1 : 1 ≤ j) (hj : j < 0xFFFFF) (hfree : s.entry .kernel j = 0#32) :
    ScratchApart s := by
  intro v s₁ v' s₂ h h'
  have hrun : FreeRun s .kernel j 1 := by
    intro k hk
    rw [show (j + k) % 0x100000 = j by omega]
    exact hfree
  obtain ⟨-, ⟨-, -, hno⟩ | ⟨a, u, ha1, ha2, hv, hfa, hfirst, -, -⟩⟩ := findVspace_ok h
  · exact absurd hrun (hno j h1 (by omega))
  · have haj : a ≤ j := by
      by_contra hc
      exact hfirst j h1 (by omega) hrun
    rw [findVspace_kernel] at h h'
    rcases findVspaceKernel_one h with ⟨hno, -⟩ | ⟨a₁, -, -, hv₁, -, ⟨hlast, -⟩ | ⟨-, ht, rfl⟩⟩
    · unfold noVspace at hno; omega
    · omega
    · -- the first page is reserved now
      rcases findVspaceKernel_one h' with ⟨hno, -⟩ | ⟨a₂, -, -, hv₂, hfree₂, -⟩
      · unfold noVspace at hno; omega
      · intro heq
        rw [show a₂ = a₁ by omega, entry_setEntry ht, if_pos ⟨rfl, rfl⟩] at hfree₂
        exact absurd hfree₂ (by decide)

/-- **One table** of the parent. -/
theorem pageDirectoryCloneTable_cloned (hpc : p ≠ c) (hk : k < 1024)
    (hframes : ∀ m e, m < 0x100000 → UserPage vm (.user p) m e → vm.pmm.used (frameOf e) = true)
    (hpde : (vm.dirs (.user p)).physicalTables k &&& pagePresent ≠ 0#32)
    (h : Cloned vm p c (k * 1024) (fun _ => False) s) (ht : s.HasTable (.user c) k) (hsc : ScratchApart s)
    (hstep : pageDirectoryCloneTable ⟨.user c, k⟩ ⟨.user p, k⟩ s = .ok s') :
    Cloned vm p c ((k + 1) * 1024) (fun _ => False) s' := by
  have hsplit : ∀ i < 1024, (k * 1024 + i) / 1024 = k ∧ (k * 1024 + i) % 1024 = i ∧ k * 1024 + i < 0x100000 := by
    intro i hi
    omega
  have hnext : (k + 1) * 1024 = k * 1024 + (0 + 1024) := by omega
  have hpage : ∀ a, a * 4096 / 4096 = a := fun a => Nat.mul_div_cancel a (by decide)
  simp only [pageDirectoryCloneTable, bind_eq_ok, pure_eq_ok, Prod.exists] at hstep
  obtain ⟨v, s₁, hfind, -, -, v', s₂, hfind', -, -, s₃, hloop, s₄, hmap, -, -, s₅, hmap', -, -, rfl⟩ := hstep
  have hvv := hsc v s₁ v' s₂ hfind hfind'
  obtain ⟨hal, hta, rfl⟩ := mapPage_ok hmap
  obtain ⟨hal', hta', rfl⟩ := mapPage_ok hmap'
  obtain ⟨a, rfl, -, hfree, hk₁⟩ := scratch_page hfind hal
  obtain ⟨a', rfl, -, hfree', hk₂⟩ := scratch_page hfind' hal'
  have haa : a ≠ a' := fun heq => hvv (by rw [heq])
  rw [hk₁.kernel a' (fun heq => haa heq.symm)] at hfree'
  have hk₁₂ := hk₁.trans hk₂
  obtain ⟨hcl, hzero⟩ := h.take hk₁₂ (fun m hm => by rcases hm with rfl | rfl <;> assumption)
  have hinv := forRange_inv
    (P := fun i u => Cloned vm p c (k * 1024 + i) (fun m => m = a ∨ m = a') u ∧ u.HasTable (.user c) k) ?_ hloop
    ⟨by rw [Nat.add_zero]; exact hcl, (hasTable_of_dirs (hk₁₂.dirs c) k).2 ht⟩
  · rw [hpage] at hta
    rw [hpage, hpage] at hta'
    rw [hpage, hpage, hnext]
    apply hinv.1.giveBack ((kernelOnly_setEntry hta).trans (kernelOnly_setEntry hta'))
    intro m hm
    rw [entry_setEntry hta', entry_setEntry hta, hzero m hm]
    rcases hm with rfl | rfl
    · rw [if_neg (fun hc => haa hc.2), if_pos ⟨rfl, rfl⟩]
      decide
    · rw [if_pos ⟨rfl, rfl⟩]
      decide
  · rintro i u u' _ hi ⟨hu, htu⟩ hentry
    obtain ⟨hdiv, hmod, hlt⟩ := hsplit i (Nat.zero_add 1024 ▸ hi)
    have hone := @cloneEntry_cloned vm u u' p c (k * 1024 + i) a a' hpc (fun e he => hframes _ e hlt he)
    rw [hdiv, hmod, Nat.add_assoc] at hone
    exact hone hpde haa hu htu hentry

/-- What the clone relies on in round `i`: scratch pages that are different, if the round needs any. -/
def ScratchMeets (child old : DirPtr) (i : Nat) (s : Vm) : Prop :=
  (s.dirs old).physicalTables i &&& pagePresent ≠ 0#32 →
    ∀ t s', getTableAlloc child s (i * 0x400000) = .ok (t, s') → ScratchApart s'

/-- **One round** of `page_directory_clone`. -/
theorem cloneTable_cloned (hpc : p ≠ c) (hk : k < 1024)
    (hframes : ∀ m e, m < 0x100000 → UserPage vm (.user p) m e → vm.pmm.used (frameOf e) = true)
    (h : Cloned vm p c (k * 1024) (fun _ => False) s) (hsc : ScratchMeets (.user c) (.user p) k s)
    (hstep : cloneTable (.user c) (.user p) k s = .ok s') : Cloned vm p c ((k + 1) * 1024) (fun _ => False) s' := by
  have hold := h.others p hpc
  have haddr : k * 0x400000 / 0x400000 = k := by omega
  simp only [cloneTable, hold] at hstep
  split at hstep
  · rename_i hpde
    split at hstep
    · simp only [pure_eq_ok] at hstep
      subst hstep
      -- without a table the parent has no user page here
      refine h.skip (fun m hm hm' e he => ?_) (by omega)
      have htable := he.table
      rw [show m / 1024 = k by omega] at htable
      exact htable hpde
    · simp at hstep
  · rename_i hpde
    simp only [bind_eq_ok, Prod.exists] at hstep
    obtain ⟨t, s₁, halloc, hstep⟩ := hstep
    have hmeet := hsc (by rw [hold]; exact hpde) t s₁ halloc
    obtain ⟨rfl, hres⟩ := getTableAlloc_ok (by omega) halloc
    rw [haddr] at hres hstep
    have hcl : Cloned vm p c (k * 1024) (fun _ => False) s₁ ∧ s₁.HasTable (.user c) k := by
      rcases hres with ⟨hex, rfl⟩ | ⟨hno, phys, j, hadd⟩
      · exact ⟨h, hex⟩
      · refine ⟨h.addTable hadd hno, ⟨⟨j * 4096, fun _ => 0#32⟩, ?_⟩⟩
        rw [hadd.dir]
        exact Function.update_self _ _ _
    cases htab : getTable s (k * 0x400000) (.user p) with
    | none => rw [htab] at hstep; simp at hstep
    | some ot =>
      rw [htab] at hstep
      obtain ⟨-, rfl⟩ := getTable_eq_some.1 htab
      rw [haddr] at hstep
      exact pageDirectoryCloneTable_cloned hpc hk hframes hpde hcl.1 hcl.2 hmeet hstep

end Table

/-! ## The whole clone -/

section Clone

variable {vm s : Vm} {p : Nat} {child : DirPtr}

/-- A user directory more leaves the kernel's entries. -/
theorem entry_addDir {i n m : Nat} {d : PageDirectory} :
    ({ s with dirs := Function.update s.dirs (.user i) d, nextDir := n } : Vm).entry .kernel m =
      s.entry .kernel m := by
  simp [Vm.entry, Vm.pageAt]

/-- What `page_directory_new` does: a block for the directory, a page `a` of the kernel directory at which the kernel
sees it, and an empty directory with one holder. -/
structure DirAdded (vm : Vm) (phys a : Nat) (s : Vm) : Prop where
  block : pmmAllocBlocksSafe vm.pmm 1 = .ok (phys, s.pmm)
  frames : s.frames = vm.frames
  others : ∀ b, b ≠ vm.nextDir → s.dirs (.user b) = vm.dirs (.user b)
  page_lt : a < 0x100000
  page_free : vm.entry .kernel a = 0#32
  kernel : ∀ m, m ≠ a → s.entry .kernel m = vm.entry .kernel m
  page : s.entry .kernel a = BitVec.ofNat 32 phys ||| (pagePresent ||| pageReadwrite)
  dir : s.dirs (.user vm.nextDir) = ⟨a * 4096, fun _ => 0#32, fun _ => none, phys, 1⟩

/-- **`page_directory_new`**. -/
theorem pageDirectoryNew_ok (h : pageDirectoryNew vm = .ok (child, s)) :
    child = .user vm.nextDir ∧ ∃ phys a, DirAdded vm phys a s := by
  simp only [pageDirectoryNew, bind_eq_ok, pure_eq_ok, Prod.exists, Prod.mk.injEq] at h
  obtain ⟨phys, pmm, hblock, virt, s₁, hfind, t, s₂, htable, s₃, hmap, rfl, rfl⟩ := h
  -- the table of the page is there, and `map_page` fails on what a failed search returns
  obtain ⟨rfl, htab⟩ := getTableAlloc_kernel htable
  rw [← htab] at hmap
  obtain ⟨hal, hta, rfl⟩ := mapPage_ok hmap
  obtain ⟨a, rfl, hlt, hfree, hk⟩ := scratch_page hfind hal
  rw [Nat.mul_div_cancel a (by decide)] at hta ⊢
  have hall := hk.trans (kernelOnly_setEntry (w := BitVec.ofNat 32 phys ||| (pagePresent ||| pageReadwrite)) hta)
  have hdir : s₂.nextDir = vm.nextDir := by
    rw [findVspace_kernel] at hfind
    rcases findVspaceKernel_one hfind with ⟨-, rfl⟩ | ⟨-, -, -, -, -, ⟨-, rfl⟩ | ⟨-, -, rfl⟩⟩ <;> rfl
  rw [setEntry_nextDir, hdir]
  refine ⟨rfl, phys, a, ⟨?_, hall.frames, fun b hb => ?_, hlt, hfree, fun m hm => ?_, ?_,
    Function.update_self _ _ _⟩⟩
  · rw [hblock]
    exact congrArg (fun q => Except.ok (phys, q)) hall.pmm.symm
  · exact (Function.update_of_ne (by simpa using hb) _ _).trans (hall.dirs b)
  · rw [entry_addDir]
    exact hall.kernel m (by simpa using hm)
  · rw [entry_addDir, entry_setEntry hta, if_pos ⟨rfl, rfl⟩]

/-- `page_directory_new` starts the invariant: the new directory is empty, and its kernel page was free. -/
theorem pageDirectoryNew_cloned (h : pageDirectoryNew vm = .ok (child, s)) :
    child = .user vm.nextDir ∧ Cloned vm p vm.nextDir 0 (fun _ => False) s := by
  obtain ⟨rfl, phys, a, hadd⟩ := pageDirectoryNew_ok h
  obtain ⟨b₀, -, -, -, -, hsize, hu⟩ := pmmAllocBlocksSafe_ok hadd.block
  refine ⟨rfl, Cloned.start (a := a) hsize (fun b hb => ?_) hadd.others hadd.frames hadd.kernel hadd.page_free ?_
    (by rw [hadd.dir]) (fun k => by rw [hadd.dir])⟩
  · rw [hu, hb, Bool.true_or]
  · rw [hadd.page]
    exact ne_zero_of_present (present_of_or _ (by decide))

/-- **Every round** of `page_directory_clone`. -/
theorem pageDirectoryClone_cloned {c : Nat} {s' : Vm} (hpc : p ≠ c)
    (hframes : ∀ m e, m < 0x100000 → UserPage vm (.user p) m e → vm.pmm.used (frameOf e) = true)
    (h : Cloned vm p c 0 (fun _ => False) s)
    (hsc : ForMeets (cloneTable (.user c) (.user p)) (ScratchMeets (.user c) (.user p)) 0 1024 s)
    (hclone : pageDirectoryClone (.user c) (.user p) s = .ok s') : Cloned vm p c 0x100000 (fun _ => False) s' := by
  have hinv := forRange_inv_meets (P := fun k u => Cloned vm p c (k * 1024) (fun _ => False) u)
    (fun k u u' _ hk hu hok hstep => ?_) hsc hclone (by rw [Nat.zero_mul]; exact h)
  · rwa [show (0 + 1024) * 1024 = 0x100000 by decide] at hinv
  · exact cloneTable_cloned hpc (Nat.zero_add 1024 ▸ hk) hframes hu hok hstep

end Clone

/-! ## Reads and writes of user programs -/

/-- The writes of a list, one after the other. -/
def userWrites (d : DirPtr) : List (Word × Byte) → Vm → Kernel Vm
  | [], vm => .ok vm
  | (va, b) :: rest, vm => userWrite vm d va b >>= userWrites d rest

section Writes

variable {vm s : Vm} {d d' : DirPtr}

/-- A write goes to the frame of one of the writer's user pages. -/
theorem userWrite_ok {va : Word} {b : Byte} (h : userWrite vm d va b = .ok s) :
    s.dirs = vm.dirs ∧ ∃ m e, m < 0x100000 ∧ UserPage vm d m e ∧ ∀ f, f ≠ frameOf e → s.frames f = vm.frames f := by
  have hva := va.isLt
  unfold userWrite at h
  simp only at h
  split at h
  · rename_i hc
    simp only [pure_eq_ok] at h
    subst h
    exact ⟨rfl, _, _, by omega, ⟨hc.1, rfl, hc.2.1, hc.2.2.1⟩, fun f hf => Function.update_of_ne hf _ _⟩
  · simp at h

theorem userPage_of_dirs {m : Nat} {e : Word} (h : s.dirs d = vm.dirs d) : UserPage s d m e ↔ UserPage vm d m e := by
  constructor
  · intro hu
    exact ⟨h ▸ hu.table, (entry_of_dirs h m).symm.trans hu.entry, hu.present, hu.user⟩
  · intro hu
    exact ⟨h.symm ▸ hu.table, (entry_of_dirs h m).trans hu.entry, hu.present, hu.user⟩

/-- Writes through `d` leave every frame that no user page of `d` names. -/
theorem userWrites_ok {f : Nat} (hf : ∀ m e, m < 0x100000 → UserPage vm d m e → frameOf e ≠ f)
    {ws : List (Word × Byte)} {s s' : Vm} (hd : s.dirs = vm.dirs) (h : userWrites d ws s = .ok s') :
    s'.dirs = vm.dirs ∧ s'.frames f = s.frames f := by
  induction ws generalizing s with
  | nil =>
    simp only [userWrites, Except.ok.injEq] at h
    subst h
    exact ⟨hd, rfl⟩
  | cons w ws ih =>
    obtain ⟨va, b⟩ := w
    simp only [userWrites, bind_eq_ok] at h
    obtain ⟨u, hw, h⟩ := h
    obtain ⟨hdu, m, e, hm, he, hframes⟩ := userWrite_ok hw
    obtain ⟨hd', hfr⟩ := ih (hdu.trans hd) h
    have hne := hf m e hm ((userPage_of_dirs (congrFun hd d)).1 he)
    exact ⟨hd', hfr.trans (hframes f (Ne.symm hne))⟩

/-- What a program reads depends on its directory and on the frames of its user pages. -/
theorem userRead_congr (hd : s.dirs d = vm.dirs d)
    (hf : ∀ m e, m < 0x100000 → UserPage vm d m e → s.frames (frameOf e) = vm.frames (frameOf e)) (va : Word) :
    userRead s d va = userRead vm d va := by
  have hva := va.isLt
  unfold userRead
  simp only [entry_of_dirs hd, hd]
  split
  · rename_i hc
    rw [hf (va.toNat / 4096) _ (by omega) ⟨hc.1, rfl, hc.2.1, hc.2.2⟩]
  · rfl

/-- Writes through `d` are not seen through `d'` when their user pages have no frame in common. -/
theorem userWrites_unseen (hdis : ∀ m e m' e', m < 0x100000 → m' < 0x100000 → UserPage vm d m e → UserPage vm d' m' e' →
    frameOf e ≠ frameOf e') {ws : List (Word × Byte)} (h : userWrites d ws vm = .ok s) (va : Word) :
    userRead s d' va = userRead vm d' va := by
  have hdirs : s.dirs = vm.dirs := by
    have hout : ∀ m e, m < 0x100000 → UserPage vm d m e → frameOf e ≠ 0x100000 := by
      intro m e _ _ heq
      have := e.isLt
      unfold frameOf at heq
      omega
    exact (userWrites_ok hout rfl h).1
  refine userRead_congr (congrFun hdirs d') (fun m' e' hm' he' => ?_) va
  exact (userWrites_ok (fun m e hm he => hdis m e m' e' hm hm' he he') rfl h).2

end Writes

/-! ## The result -/

/-- What a child directory is after a fork of directory `p` in `vm`. -/
structure ForkIsolated (vm : Vm) (p : Nat) (child : DirPtr) (vm' : Vm) : Prop where
  /-- The child has a user page exactly where the parent has one, -/
  pages : ∀ m, m < 0x100000 → ((∃ e, UserPage vm' child m e) ↔ ∃ e, UserPage vm (.user p) m e)
  /-- with the same flags and contents, -/
  copies : ∀ m e e', m < 0x100000 → UserPage vm (.user p) m e → UserPage vm' child m e' →
    e' &&& 0x3FF#32 = e &&& 0x3FF#32 ∧ vm'.frames (frameOf e') = vm.frames (frameOf e)
  /-- in frames that are pairwise distinct, -/
  distinct : ∀ m m' e e', UserPage vm' child m e → UserPage vm' child m' e' → frameOf e = frameOf e' → m = m'
  /-- and were not in use. -/
  fresh : ∀ m e, UserPage vm' child m e → vm.pmm.used (frameOf e) = false
  /-- The parent's directory and every frame in use are as before. -/
  parent : vm'.dirs (.user p) = vm.dirs (.user p)
  frames : ∀ f, vm.pmm.used f = true → vm'.frames f = vm.frames f
  /-- The kernel directory has new mappings of the child's directory and tables, at pages that were free. -/
  kernel : ∀ m, vm'.entry .kernel m ≠ vm.entry .kernel m → vm.entry .kernel m = 0#32 ∧
    ((vm'.dirs child).physicalTablesVirt = m * 4096 ∨
      ∃ k, vm'.HasTable child k ∧ vm'.tableVirt ⟨child, k⟩ = m * 4096)
  /-- Later writes of one are not read by the other. -/
  child_writes : ∀ ws s, userWrites child ws vm' = .ok s → ∀ va, userRead s (.user p) va = userRead vm' (.user p) va
  parent_writes : ∀ ws s, userWrites (.user p) ws vm' = .ok s → ∀ va, userRead s child va = userRead vm' child va

/-- **Fork isolation.** Cloning directory `p`, whose user pages are backed by used blocks, into a new directory, with
scratch pages that are different in each round. -/
theorem fork_isolates (vm vm₁ vm₂ : Vm) (p : Nat) (child : DirPtr) (hp : p < vm.nextDir)
    (hframes : ∀ m e, m < 0x100000 → UserPage vm (.user p) m e → vm.pmm.used (frameOf e) = true)
    (hnew : pageDirectoryNew vm = .ok (child, vm₁))
    (hscratch : ForMeets (cloneTable child (.user p)) (ScratchMeets child (.user p)) 0 1024 vm₁)
    (hclone : pageDirectoryClone child (.user p) vm₁ = .ok vm₂) : ForkIsolated vm p child vm₂ := by
  have hpc : p ≠ vm.nextDir := Nat.ne_of_lt hp
  obtain ⟨rfl, hstart⟩ := @pageDirectoryNew_cloned vm vm₁ p child hnew
  have h := pageDirectoryClone_cloned hpc hframes hstart hscratch hclone
  have hparent : vm₂.dirs (.user p) = vm.dirs (.user p) := h.others p hpc
  -- a user page of the child is the copy of a page of the parent
  have hcopy : ∀ m e', UserPage vm₂ (.user vm.nextDir) m e' → ∃ e b, m < 0x100000 ∧ UserPage vm (.user p) m e ∧
      CopiedTo vm vm₂ e b ∧ e' = copyEntry b e := by
    intro m e' he'
    have hne : vm₂.entry (.user vm.nextDir) m ≠ 0#32 := by
      rw [he'.entry]
      exact ne_zero_of_present he'.present
    obtain ⟨e, b, hm, he, hb, hent⟩ := h.copy_of_ne hne
    exact ⟨e, b, hm, he, hb, he'.entry.symm.trans hent⟩
  have hfresh : ∀ m e, UserPage vm₂ (.user vm.nextDir) m e → vm.pmm.used (frameOf e) = false := by
    intro m e' he'
    obtain ⟨e, b, -, -, hb, rfl⟩ := hcopy m e' he'
    rw [frameOf_copyEntry hb.lt]
    exact hb.fresh
  have hdis : ∀ m e m' e', m' < 0x100000 → UserPage vm₂ (.user vm.nextDir) m e → UserPage vm₂ (.user p) m' e' →
      frameOf e ≠ frameOf e' := by
    intro m e m' e' hm' he he' heq
    have hused := hframes m' e' hm' ((userPage_of_dirs hparent).1 he')
    rw [← heq, hfresh m e he] at hused
    exact Bool.noConfusion hused
  refine ⟨fun m hm => ⟨?_, ?_⟩, fun m e e' hm he he' => ?_, fun m m' e e' he he' heq => ?_, hfresh, hparent, h.frames,
    fun m hm => ?_, fun ws s hw va => ?_, fun ws s hw va => ?_⟩
  · rintro ⟨e', he'⟩
    obtain ⟨e, b, -, he, -, -⟩ := hcopy m e' he'
    exact ⟨e, he⟩
  · rintro ⟨e, he⟩
    obtain ⟨b, hb, hent⟩ := h.copy m e hm he
    have hpres : copyEntry b e &&& pagePresent ≠ 0#32 := copyEntry_present he.present
    refine ⟨copyEntry b e, h.tables _ ?_, hent, hpres, ?_⟩
    · -- a page with an entry has a table
      by_contra hno
      have hz : vm₂.entry (.user vm.nextDir) m = 0#32 := by
        unfold Vm.entry Vm.pageAt
        cases ht : (vm₂.dirs (.user vm.nextDir)).tables (m / 1024) with
        | none => rfl
        | some t => exact absurd ⟨t, ht⟩ hno
      rw [hent] at hz
      exact ne_zero_of_present hpres hz
    · rw [copyEntry_and (by decide)]
      exact he.user
  · obtain ⟨e₀, b, -, he₀, hb, rfl⟩ := hcopy m e' he'
    have hee : e₀ = e := he₀.entry.symm.trans he.entry
    subst hee
    exact ⟨copyEntry_flags, by rw [frameOf_copyEntry hb.lt]; exact hb.contents⟩
  · refine h.inj m m' ?_ ?_ ?_
    · rw [he.entry]
      exact ne_zero_of_present he.present
    · rw [he'.entry]
      exact ne_zero_of_present he'.present
    · rw [he.entry, he'.entry]
      exact heq
  · by_cases hc : ChildPage vm₂ vm.nextDir m
    · exact ⟨(h.kernel_new m hc).2.1, hc⟩
    · exact absurd (h.kernel_same m hc (fun hf => hf)) hm
  · exact userWrites_unseen (fun m e m' e' _ hm' he he' => hdis m e m' e' hm' he he') hw va
  · exact userWrites_unseen (fun m e m' e' hm _ he he' heq => hdis m' e' m e hm he' he heq.symm) hw va

/-- A machine with 32 blocks of which the first two are used, a free kernel directory, and one user directory with a
user page at address 0 in block 1. -/
def forkVm : Vm where
  pmm := ⟨fun i => if i = 0 then 3#32 else 0#32, 32, by decide⟩
  dirs := Function.update
    (fun _ => ⟨0, fun k => if k = 0 then 7#32 else 0#32,
      fun k => if k = 0 then some ⟨0, fun i => if i = 0 then 0x1007#32 else 0#32⟩ else none, 0, 1⟩)
    .kernel ⟨0, fun _ => 1#32, fun _ => some ⟨0, fun _ => 0#32⟩, 0, -1⟩
  nextDir := 1
  frames f i := BitVec.ofNat 8 (f + i)

/-- The page of that machine is copied. -/
theorem fork_isolates_one : ∃ vm₁ vm₂, pageDirectoryNew forkVm = .ok (.user 1, vm₁) ∧
    pageDirectoryClone (.user 1) (.user 0) vm₁ = .ok vm₂ ∧ UserPage forkVm (.user 0) 0 0x1007#32 ∧
    ForkIsolated forkVm 0 (.user 1) vm₂ := by
  -- the statements of the first round that do something, one after the other
  obtain ⟨vm₁, hnew, hdir₁, s₁, htable, hfree, s₂, hfind, s₃, hfind', s₄, hentry, hdir₄, s₅, hmap, s₆, hmap', hdir₆⟩ :
      ∃ vm₁, pageDirectoryNew forkVm = .ok (.user 1, vm₁) ∧ vm₁.dirs (.user 0) = forkVm.dirs (.user 0) ∧
      ∃ s₁, getTableAlloc (.user 1) vm₁ (0 * 0x400000) = .ok (⟨.user 1, 0⟩, s₁) ∧ s₁.entry .kernel 3 = 0#32 ∧
      ∃ s₂, findVspace .kernel 1 s₁ = .ok (0x3000, s₂) ∧ ∃ s₃, findVspace .kernel 1 s₂ = .ok (0x4000, s₃) ∧
      ∃ s₄, cloneEntry ⟨.user 1, 0⟩ ⟨.user 0, 0⟩ 0x3000 0x4000 0 s₃ = .ok s₄ ∧
        s₄.dirs (.user 0) = forkVm.dirs (.user 0) ∧
      ∃ s₅, mapPage s₄ (getTable s₄ 0x3000 .kernel) 0x3000 0 0#32 = .ok s₅ ∧
      ∃ s₆, mapPage s₅ (getTable s₅ 0x4000 .kernel) 0x4000 0 0#32 = .ok s₆ ∧
        s₆.dirs (.user 0) = forkVm.dirs (.user 0) :=
    ⟨_, rfl, rfl, _, rfl, rfl, _, rfl, _, rfl, _, rfl, rfl, _, rfl, _, rfl, rfl⟩
  -- the other pages of the table, and the other tables, are empty
  have hloop : forRange (cloneEntry ⟨.user 1, 0⟩ ⟨.user 0, 0⟩ 0x3000 0x4000) 0 1024 s₃ = .ok s₄ := by
    rw [forRange_succ, hentry, ok_bind]
    apply forRange_idle
    intro i hi _
    have hpage : s₄.pageAt ⟨.user 0, 0⟩ i = 0#32 := by
      unfold Vm.pageAt
      simp only [hdir₄]
      exact if_neg (by omega)
    unfold cloneEntry
    rw [hpage]
    rfl
  have hidle : ∀ i, 1 ≤ i → cloneTable (.user 1) (.user 0) i s₆ = .ok s₆ := by
    intro i hi
    have hpde : (forkVm.dirs (.user 0)).physicalTables i = 0#32 := if_neg (by omega)
    simp only [cloneTable, hdir₆, hpde]
    rfl
  have hround : cloneTable (.user 1) (.user 0) 0 vm₁ = .ok s₆ := by
    have htab : getTable vm₁ (0 * 0x400000) (.user 0) = some ⟨.user 0, 0⟩ := by
      unfold getTable
      rw [hdir₁]
      rfl
    have hpde : (forkVm.dirs (.user 0)).physicalTables 0 = 7#32 := rfl
    simp only [cloneTable, hdir₁, hpde, htab]
    rw [if_neg (by decide), htable]
    simp only [ok_bind, pageDirectoryCloneTable, hfind, hfind', hloop, hmap, hmap']
    rfl
  have hclone : pageDirectoryClone (.user 1) (.user 0) vm₁ = .ok s₆ := by
    unfold pageDirectoryClone
    rw [forRange_succ, hround, ok_bind]
    exact forRange_idle fun i hi _ => hidle i hi
  have hscratch : ForMeets (cloneTable (.user 1) (.user 0)) (ScratchMeets (.user 1) (.user 0)) 0 1024 vm₁ := by
    refine ⟨fun _ t s' h => ?_, fun t ht => ?_⟩
    · rw [htable, Except.ok.injEq, Prod.mk.injEq] at h
      rw [← h.2]
      exact scratchApart_of_free (by omega) (by omega) hfree
    · rw [hround, Except.ok.injEq] at ht
      subst ht
      refine forMeets_idle fun i hi _ => ⟨fun hp => absurd ?_ hp, hidle i hi⟩
      rw [hdir₆]
      have hpde : (forkVm.dirs (.user 0)).physicalTables i = 0#32 := if_neg (by omega)
      rw [hpde]
      decide
  have huser : UserPage forkVm (.user 0) 0 0x1007#32 := ⟨by decide, rfl, by decide, by decide⟩
  have hframes : ∀ m e, m < 0x100000 → UserPage forkVm (.user 0) m e → forkVm.pmm.used (frameOf e) = true := by
    intro m e _ he
    have hk : m / 1024 = 0 := by
      by_contra hne
      have hpde : (forkVm.dirs (.user 0)).physicalTables (m / 1024) = 0#32 := if_neg hne
      exact absurd (show (forkVm.dirs (.user 0)).physicalTables (m / 1024) &&& pagePresent = 0#32 by
        rw [hpde]; decide) he.table
    have hm : m = 0 := by
      by_contra hne
      have hent : forkVm.entry (.user 0) m = 0#32 := by
        unfold Vm.entry
        rw [hk]
        exact if_neg (by omega)
      exact ne_zero_of_present he.present (he.entry.symm.trans hent)
    subst hm
    rw [← he.entry]
    rfl
  exact ⟨vm₁, s₆, hnew, hclone, huser, fork_isolates forkVm vm₁ s₆ 0 (.user 1) (by decide) hframes hnew hscratch hclone⟩

end Myunix.Process
