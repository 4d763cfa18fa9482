import Myunix.Tlb.Access

/-!
# Coherence of the translation cache

A cached entry of a page that is mapped has the page's frame: `Coherent`. `map_userspace_to_kernel` keeps it, as it
invalidates a page after it has mapped it. `liballoc_alloc` and `page_directory_new` do not invalidate, and
`get_table_alloc` invalidates the address that was asked for and not the page of the new table; these keep it when the
page they take has no entry left from an earlier use, which is what `Op.Meets` says.
-/

namespace Myunix.Tlb

open Lib Pmm Vmm Process Syscall

/-- Page `p` is mapped in the kernel directory. -/
def Mapped (vm : Vm) (p : Nat) : Prop := vm.entry .kernel p &&& pagePresent ≠ 0#32

/-- Every access to a mapped page, `p` apart, goes to the frame in the kernel directory. -/
def CoherentBut (p : Nat) (m : Mmu) : Prop :=
  ∀ q c, q ≠ p → m.tlb q = some c → Mapped m.vm q → frameOf c = frameOf (m.vm.entry .kernel q)

/-- Every access to a mapped page goes to the frame in the kernel directory. -/
def Coherent (m : Mmu) : Prop := ∀ q c, m.tlb q = some c → Mapped m.vm q → frameOf c = frameOf (m.vm.entry .kernel q)

/-- An error that is no access to a wrong frame. -/
def Quiet (t : Trap) : Prop := ∀ va, t ≠ .stale va

/-! ## Statements -/

section Statements

variable {m : Mmu} {vm : Vm} {va p : Nat}

theorem yields_kernel {α : Type} (x : Kernel α) : Yields (kernel x) (fun a => x = .ok a) Quiet := by
  cases x with
  | ok a => rfl
  | error f => exact fun va h => by cases h

/-- What an access leaves: the machine, and the cached entries of pages that are not mapped. -/
structure Touched (m m' : Mmu) : Prop where
  vm : m'.vm = m.vm
  coherent : Coherent m'
  unmapped : ∀ p, ¬ Mapped m.vm p → m'.tlb p = m.tlb p

theorem translate_yields (h : Coherent m) (va : Nat) : Yields (translate m va) (fun r => Touched m r.2) Quiet := by
  unfold translate
  cases hc : m.tlb (va / 4096) with
  | some c =>
    simp only
    split
    · next hstale => exact absurd (h _ _ hc hstale.1) hstale.2
    · exact ⟨rfl, h, fun _ _ => rfl⟩
  | none =>
    simp only
    split
    · exact fun va h => by cases h
    · next hpage =>
      refine ⟨rfl, fun q c hq hmap => ?_, fun p hp => ?_⟩
      · by_cases hqp : q = va / 4096
        · subst hqp
          simp only [Function.update_self, Option.some.injEq] at hq
          rw [← hq]
        · simp only [Function.update_of_ne hqp] at hq
          exact h q c hq hmap
      · have hne : p ≠ va / 4096 := by
          rintro rfl
          exact hp hpage
        exact Function.update_of_ne hne _ _

theorem touch_yields (h : Coherent m) (va : Nat) : Yields (touch m va) (Touched m) Quiet :=
  (translate_yields h _).bind fun _ hr => hr

theorem load_yields (h : Coherent m) (va : Nat) : Yields (load m va) (fun r => Coherent r.2) Quiet :=
  (translate_yields h _).bind fun _ hr => hr.coherent

theorem store_yields (h : Coherent m) (va : Nat) (b : Byte) : Yields (store m va b) Coherent Quiet :=
  (translate_yields h _).bind fun _ hr => hr.coherent

theorem memcpy_yields (h : Coherent m) (dest src len : Nat) : Yields (memcpy m dest src len) Coherent Quiet :=
  (yields_kernel _).bind fun _ _ => forRange_yields
    (fun i _ hm => (load_yields hm _).bind fun r hr => store_yields hr (dest + i) r.1) len 0 h

theorem memset_yields (h : Coherent m) (dest len : Nat) :
    Yields (memset m dest len) (fun m' => m'.vm = m.vm ∧ Coherent m') Quiet := by
  refine (yields_kernel _).bind fun _ _ => forRange_yields (fun i u hu => ?_) len 0 ⟨rfl, h⟩
  exact (touch_yields hu.2 _).imp fun u' ht => ⟨ht.vm.trans hu.1, ht.coherent⟩

/-- An `invlpg` leaves what is coherent for the other pages. -/
theorem invalidatePage_yields (h : va % 1024 = 0 → ∀ q c, q ≠ va / 4096 → m.tlb q = some c → Mapped m.vm q →
    frameOf c = frameOf (m.vm.entry .kernel q)) : Yields (invalidatePage m va) Coherent Quiet := by
  apply (yields_kernel _).bind
  intro _ hal q c hq hmap
  rw [Vmm.invalidatePage, assert_eq_ok] at hal
  by_cases hqp : q = va / 4096
  · subst hqp
    simp [Function.update_self] at hq
  · simp only [Function.update_of_ne hqp] at hq
    exact h hal q c hqp hq hmap

theorem mapKernel_yields (h : Coherent m) (va p : Nat) (f : Word) :
    Yields (mapKernel m va p f) (fun m' => CoherentBut (va / 4096) m' ∧ m'.tlb = m.tlb ∧
      m.vm.HasTable .kernel (va / 4096 / 1024) ∧ va % 1024 = 0 ∧
      m'.vm = m.vm.setEntry .kernel (va / 4096) (BitVec.ofNat 32 p ||| f)) Quiet := by
  apply (yields_kernel _).bind
  intro vm hvm
  obtain ⟨hal, ht, rfl⟩ := mapPage_ok hvm
  refine ⟨fun q c hq hc hmap => ?_, rfl, ht, hal, rfl⟩
  have hent : (m.vm.setEntry .kernel (va / 4096) (BitVec.ofNat 32 p ||| f)).entry .kernel q = m.vm.entry .kernel q := by
    rw [entry_setEntry ht, if_neg fun he => hq he.2]
  unfold Mapped at hmap
  rw [hent] at hmap ⊢
  exact h q c hc hmap

end Statements

/-! ## Parts that map no page -/

/-- The entries of the kernel directory stay, or are not present. -/
def Unmaps (vm vm' : Vm) : Prop := ∀ p, vm'.entry .kernel p = vm.entry .kernel p ∨ ¬ Mapped vm' p

section Unmap

variable {m : Mmu} {vm vm' vm'' : Vm} {n v kptr : Nat}

theorem Unmaps.refl : Unmaps vm vm := fun _ => .inl rfl

theorem Unmaps.trans (h : Unmaps vm vm') (h' : Unmaps vm' vm'') : Unmaps vm vm'' := by
  intro p
  rcases h' p with heq | hno
  · rcases h p with heq' | hno
    · exact .inl (heq.trans heq')
    · right
      unfold Mapped at hno ⊢
      rw [heq]
      exact hno
  · exact .inr hno

/-- Coherence is about mapped pages. -/
theorem Coherent.unmaps (h : Coherent m) (hu : Unmaps m.vm vm) : Coherent { m with vm := vm } := by
  intro q c hc hmap
  rcases hu q with heq | hno
  · rw [show ({ m with vm := vm } : Mmu).vm.entry .kernel q = m.vm.entry .kernel q from heq]
    apply h q c hc
    unfold Mapped at hmap ⊢
    rw [← heq]
    exact hmap
  · exact absurd hmap hno

theorem unmaps_mapPage {w : Nat} {f : Word} (hw : (BitVec.ofNat 32 w ||| f) &&& pagePresent = 0#32)
    (h : mapPage vm (Vmm.getTable vm v .kernel) v w f = .ok vm') : Unmaps vm vm' := by
  obtain ⟨-, ht, rfl⟩ := mapPage_ok h
  intro p
  unfold Mapped
  rw [entry_setEntry ht]
  by_cases hp : p = v / 4096
  · rw [if_pos ⟨rfl, hp⟩]
    exact .inr fun hno => hno hw
  · rw [if_neg fun he => hp he.2]
    exact .inl rfl

/-- A reserved page is not present, and no block is taken for it. -/
theorem findVspace_unmaps (h : findVspace .kernel n vm = .ok (v, vm')) : Unmaps vm vm' ∧ vm'.pmm = vm.pmm := by
  rw [findVspace_kernel] at h
  simp only [findVspaceKernel, findVspaceWith, bind_eq_ok, assert_eq_ok] at h
  obtain ⟨-, hn, h⟩ := h
  rcases vspaceFrom_spec (quiet_eq .kernel) kernelTable_spec hn (by omega) h with
    ⟨-, rfl, -⟩ | ⟨j, vm₁, -, -, -, -, -, rfl, hres⟩
  · exact ⟨Unmaps.refl, rfl⟩
  · refine forRange_keeps (I := fun u => Unmaps vm u ∧ u.pmm = vm.pmm) ?_ hres ⟨Unmaps.refl, rfl⟩
    rintro k u u' - - ⟨hu, hpmm⟩ hmap
    refine ⟨hu.trans (unmaps_mapPage (w := pageValueReserved.toNat) (f := 0#32) (by decide) hmap), ?_⟩
    obtain ⟨-, -, rfl⟩ := mapPage_ok hmap
    exact hpmm

theorem unmapMapped_unmaps {rest i : Nat} (h : unmapMapped kptr rest i vm = .ok vm') : Unmaps vm vm' := by
  induction rest generalizing i vm with
  | zero =>
    simp only [unmapMapped, Except.ok.injEq] at h
    subst h
    exact Unmaps.refl
  | succ rest ih =>
    simp only [unmapMapped, bind_eq_ok] at h
    obtain ⟨page, -, h⟩ := h
    split at h
    · rw [pure_eq_ok] at h
      subst h
      exact Unmaps.refl
    · simp only [bind_eq_ok] at h
      obtain ⟨u, hmap, h⟩ := h
      exact (unmaps_mapPage (by decide) hmap).trans (ih h)

theorem unmapFromKernel_unmaps (h : Syscall.unmapFromKernel kptr n vm = .ok vm') : Unmaps vm vm' := by
  simp only [Syscall.unmapFromKernel, bind_eq_ok, assert_eq_ok] at h
  obtain ⟨-, -, h⟩ := h
  refine forRange_keeps (I := Unmaps vm) ?_ h Unmaps.refl
  intro k u u' _ _ hu hmap
  exact hu.trans (unmaps_mapPage (by decide) hmap)

theorem liballocFree_unmaps (h : liballocFree v n vm = .ok vm') : Unmaps vm vm' := by
  simp only [liballocFree, bind_eq_ok, assert_eq_ok] at h
  obtain ⟨-, -, h⟩ := h
  refine forRange_keeps (I := Unmaps vm) ?_ h Unmaps.refl
  intro k u u' _ _ hu hstep
  simp only [liballocFreePage, bind_eq_ok] at hstep
  obtain ⟨page, -, hstep⟩ := hstep
  split at hstep
  · exact hu.trans (unmaps_mapPage (by decide) hstep)
  · simp only [bind_eq_ok, pure_eq_ok] at hstep
    obtain ⟨u₁, hmap, pmm, -, rfl⟩ := hstep
    have hun : Unmaps u u₁ := unmaps_mapPage (by decide) hmap
    exact hu.trans hun

theorem unmapFromKernel_yields (h : Coherent m) (kptr n : Nat) : Yields (unmapFromKernel m kptr n) Coherent Quiet :=
  (yields_kernel _).bind fun _ hvm => h.unmaps (unmapFromKernel_unmaps hvm)

end Unmap

/-! ## User memory -/

section User

variable {object : DirPtr → Nat} {m : Mmu}

theorem getTable_yields (h : Coherent m) (va : Nat) (d : DirPtr) :
    Yields (getTable object m va d) (fun r => Touched m r.2 ∧ r.1 = Vmm.getTable m.vm va d) Quiet :=
  (touch_yields h _).bind fun m' ht => ⟨ht, by rw [← ht.vm]⟩

theorem getPage_yields (h : Coherent m) (t : TablePtr) (va : Nat) :
    Yields (getPage m t va) (fun r => Coherent r.2) Quiet :=
  (touch_yields h _).bind fun _ ht => (yields_kernel _).bind fun _ _ => ht.coherent

theorem dumpDirectory_yields (h : Coherent m) (d : DirPtr) : Yields (dumpDirectory object m d) Coherent Quiet := by
  refine (touch_yields h _).bind fun m₁ h₁ => forRange_yields (fun i u hu => ?_) 1024 0 h₁.coherent
  refine (touch_yields hu _).bind fun u₁ ht₁ => (touch_yields ht₁.coherent _).bind fun u₂ ht₂ =>
    (touch_yields ht₂.coherent _).bind fun u₃ ht₃ => ?_
  simp only
  split
  · exact (yields_kernel _).bind fun _ _ => ht₃.coherent
  · split
    · refine (yields_kernel _).bind fun _ _ => forRange_yields (fun k w hw => ?_) 1024 0 ht₃.coherent
      exact (touch_yields hw _).imp fun _ ht => ht.coherent
    · exact ht₃.coherent

theorem mapUserPages_yields (pdir : DirPtr) (ptr kptr rest : Nat) :
    ∀ (i : Nat) {m : Mmu}, Coherent m → Yields (mapUserPages object pdir ptr kptr rest i m)
      (fun r => Coherent r.2) Quiet := by
  induction rest with
  | zero => exact fun _ _ h => h
  | succ rest ih =>
    intro i m h
    refine (mapKernel_yields h _ _ _).bind fun m₁ h₁ => (invalidatePage_yields fun _ => h₁.1).bind fun m₂ h₂ =>
      (getTable_yields h₂ _ _).bind fun r h₃ => ?_
    obtain ⟨table, m₃⟩ := r
    cases table with
    | none => exact h₃.1.coherent
    | some table =>
      apply (getPage_yields h₃.1.coherent _ _).bind
      intro r h₄
      simp only
      split
      · exact h₄
      · exact (mapKernel_yields h₄ _ _ _).bind fun m₅ h₅ => (invalidatePage_yields fun _ => h₅.1).bind fun m₆ h₆ =>
          ih (i + 1) h₆

theorem mapUserspaceToKernel_yields (h : Coherent m) (pdir : DirPtr) (ptr kptr n : Nat) :
    Yields (mapUserspaceToKernel object m pdir ptr kptr n) (fun r => Coherent r.2) Quiet := by
  refine (yields_kernel _).bind fun _ _ => (mapUserPages_yields pdir ptr kptr n 0 h).bind fun r h₁ => ?_
  obtain ⟨done, m₁⟩ := r
  cases done with
  | true => exact h₁
  | false =>
    exact (dumpDirectory_yields h₁ _).bind fun m₂ h₂ => (yields_kernel _).bind fun vm hvm =>
      h₂.unmaps (unmapMapped_unmaps hvm)

theorem mapCopy_yields (h : Coherent m) (pdir : DirPtr) (ptr n : Word) :
    Yields (mapCopy object m pdir ptr n) (fun r => Coherent r.2) Quiet := by
  refine (yields_kernel _).bind fun _ _ => (yields_kernel _).bind fun r hr => ?_
  have h₁ := h.unmaps (findVspace_unmaps hr).1
  simp only
  split
  · exact h₁
  · apply (mapUserspaceToKernel_yields h₁ _ _ _ _).bind
    intro r h₂
    obtain ⟨done, m₂⟩ := r
    cases done with
    | true => exact h₂
    | false => exact (unmapFromKernel_yields h₂ _ _).bind fun _ h₃ => h₃

theorem stringBytes_yields (kptr buffer n rest : Nat) : ∀ (i : Nat) {m : Mmu}, Coherent m →
    Yields (stringBytes kptr buffer n rest i m) (fun r => Coherent r.2) Quiet := by
  induction rest with
  | zero => exact fun _ _ h => h
  | succ rest ih =>
    intro i m h
    unfold stringBytes
    split
    · exact (unmapFromKernel_yields h _ _).bind fun _ h₁ => h₁
    · refine (load_yields h _).bind fun r h₁ => (store_yields h₁ _ _).bind fun m₂ h₂ =>
        (load_yields h₂ _).bind fun r h₃ => ?_
      simp only
      split
      · exact (unmapFromKernel_yields h₃ _ _).bind fun _ h₄ => h₄
      · exact ih (i + 1) h₃

theorem stringPages_yields (pdir : DirPtr) (kptr buffer n rounds : Nat) : ∀ (p offset i : Nat) {m : Mmu}, Coherent m →
    Yields (stringPages object pdir kptr buffer n rounds p offset i m) Coherent Quiet := by
  induction rounds with
  | zero => exact fun _ _ _ _ _ va h => by cases h
  | succ rounds ih =>
    intro p offset i m h
    apply (mapUserspaceToKernel_yields h _ _ _ _).bind
    intro r h₁
    obtain ⟨done, m₁⟩ := r
    cases done with
    | false => exact unmapFromKernel_yields h₁ _ _
    | true =>
      apply (stringBytes_yields _ _ _ _ _ h₁).bind
      intro r h₂
      obtain ⟨i', m₂⟩ := r
      cases i' with
      | none => exact h₂
      | some i' => exact (store_yields h₂ _ _).bind fun m₃ h₃ => ih _ _ _ h₃

end User

/-! ## Pages that are taken -/

/-- `j` is the first page of the lowest run of `n` free pages of the kernel directory. -/
structure LowestRun (vm : Vm) (n j : Nat) : Prop where
  first : 1 ≤ j
  last : j < 0x100000
  free : FreeRun vm .kernel j n
  lowest : ∀ i, 1 ≤ i → i < j → ¬ FreeRun vm .kernel i n

/-- What `pmm_alloc_blocks(1)` returns after `k` calls of it. -/
def blockAfter (pmm : BlockMap) : Nat → Option Nat
  | 0 => match pmmAllocBlocks pmm 1 with
    | .ok (block, _) => some block
    | .error _ => none
  | k + 1 => match pmmAllocBlocks pmm 1 with
    | .ok (_, pmm) => blockAfter pmm k
    | .error _ => none

/-- Page `p` is not cached, or is cached with the frame of the given block. -/
def Clean (m : Mmu) (p : Nat) (block : Option Nat) : Prop :=
  ∀ c b, m.tlb p = some c → block = some b → frameOf c = frameOf (BitVec.ofNat 32 b)

/-- The pages that an operation takes and does not invalidate have no cached entry from an earlier use. -/
def Op.Meets (m : Mmu) : Op → Prop
  | .liballocAlloc pages => ∀ j, LowestRun m.vm pages j →
      ∀ k < pages, Clean m ((j + k) % 0x100000) (blockAfter m.vm.pmm k)
  | .pageDirectoryNew => ∀ j, LowestRun m.vm 1 j → Clean m j (blockAfter m.vm.pmm 0)
  | .getTableAlloc virtaddr directory => ¬ m.vm.HasTable directory (virtaddr.toNat / 0x400000) →
      virtaddr.toNat % 1024 = 0 → ∀ j, LowestRun m.vm 1 j → virtaddr.toNat / 4096 ≠ j →
      Clean m j (blockAfter m.vm.pmm 0)
  | .copyFromUserspace _ _ _ _ => True
  | .copyFromUserspaceString _ _ _ _ _ => True
  | .copyToUserspace _ _ _ _ => True
  | .mapBuffer _ _ _ => True
  | .unmapFromKernel _ _ => True
  | .liballocFree _ _ => True
  | .load _ => True
  | .store _ _ => True
  | .loadCr3 => True

section Taken

variable {m : Mmu} {vm vm' : Vm} {pmm pmm' : BlockMap} {n j v p b k : Nat}

theorem blockAfter_zero (h : pmmAllocBlocks pmm 1 = .ok (b, pmm')) : blockAfter pmm 0 = some b := by
  rw [blockAfter, h]

theorem blockAfter_succ (h : pmmAllocBlocks pmm 1 = .ok (b, pmm')) (k : Nat) :
    blockAfter pmm (k + 1) = blockAfter pmm' k := by
  rw [blockAfter, h]

theorem blockAfter_safe (h : pmmAllocBlocksSafe pmm 1 = .ok (b, pmm')) : blockAfter pmm 0 = some b := by
  simp only [pmmAllocBlocksSafe, bind_eq_ok, pure_eq_ok, Prod.exists, Prod.mk.injEq] at h
  obtain ⟨b', p', h, -, -, rfl, -⟩ := h
  exact blockAfter_zero h

/-- The run that `find_vspace` takes. -/
theorem findVspace_lowest (h : findVspace .kernel n vm = .ok (v, vm')) :
    v = noVspace ∨ ∃ j, v = j * 4096 ∧ LowestRun vm n j := by
  rcases findVspace_stores h with ⟨hv, -⟩ | ⟨j, h1, h2, hv, hfree, hlow, -⟩
  · exact .inl hv
  · exact .inr ⟨j, hv, h1, h2, hfree, hlow⟩

theorem LowestRun.page_free (h : LowestRun vm 1 j) : vm.entry .kernel j = 0#32 := by
  have hfree := h.free 0 (by omega)
  rwa [Nat.add_zero, Nat.mod_eq_of_lt h.last] at hfree

theorem LowestRun.not_mapped (h : LowestRun vm 1 j) : ¬ Mapped vm j := by
  unfold Mapped
  rw [h.page_free]
  decide

/-- Blocks are no part of the kernel directory. -/
theorem LowestRun.setPmm (h : LowestRun { vm with pmm := pmm } n j) : LowestRun vm n j :=
  ⟨h.first, h.last, h.free, h.lowest⟩

/-- A page that gets the frame it is cached with. -/
theorem CoherentBut.coherent (h : CoherentBut p m)
    (hp : ∀ c, m.tlb p = some c → frameOf c = frameOf (m.vm.entry .kernel p)) : Coherent m := by
  intro q c hc hmap
  by_cases hq : q = p
  · subst hq
    exact hp c hc
  · exact h q c hq hc hmap

/-- The new entry of a page has the frame of its block. -/
theorem frameOf_taken (ht : vm.HasTable .kernel (p / 1024)) (b : Nat) :
    frameOf ((vm.setEntry .kernel p (BitVec.ofNat 32 b ||| (pagePresent ||| pageReadwrite))).entry .kernel p) =
      frameOf (BitVec.ofNat 32 b) := by
  rw [entry_setEntry ht, if_pos ⟨rfl, rfl⟩]
  exact frameOf_or (by decide)

/-- A new page at a clean place. -/
theorem coherent_mapPage {pmm : BlockMap} (h : Coherent m) (hclean : Clean m (v / 4096) (some b))
    (hmap : mapPage { m.vm with pmm := pmm } (Vmm.getTable { m.vm with pmm := pmm } v .kernel) v b
      (pagePresent ||| pageReadwrite) = .ok vm') : Coherent { m with vm := vm' } := by
  obtain ⟨-, ht, rfl⟩ := mapPage_ok hmap
  intro q c hc hmapped
  by_cases hq : q = v / 4096
  · subst hq
    rw [frameOf_taken ht]
    exact hclean c b hc rfl
  · have hent : (({ m.vm with pmm := pmm } : Vm).setEntry .kernel (v / 4096)
        (BitVec.ofNat 32 b ||| (pagePresent ||| pageReadwrite))).entry .kernel q = m.vm.entry .kernel q := by
      rw [entry_setEntry ht, if_neg fun he => hq he.2]
      rfl
    unfold Mapped at hmapped
    rw [hent] at hmapped ⊢
    exact h q c hc hmapped

/-- **`liballoc_alloc`** on pages that are clean. -/
theorem liballocAlloc_coherent (h : Coherent m) (hmeets : (Op.liballocAlloc n).Meets m)
    (halloc : liballocAlloc n m.vm = .ok (v, vm')) : Coherent { m with vm := vm' } := by
  simp only [liballocAlloc, bind_eq_ok, pure_eq_ok, Prod.exists, Prod.mk.injEq] at halloc
  obtain ⟨v', vm₁, hfind, vm₂, hloop, rfl, rfl⟩ := halloc
  obtain ⟨hunmaps, hpmm⟩ := findVspace_unmaps hfind
  -- the block of round `i` is what `pmm_alloc_blocks` returns after `i` calls
  refine (forRange_inv (P := fun i u => Coherent { m with vm := u } ∧
    ∀ k, blockAfter u.pmm k = blockAfter m.vm.pmm (i + k)) ?_ hloop
    ⟨h.unmaps hunmaps, fun k => by rw [hpmm, Nat.zero_add]⟩).1
  rintro i u u' - hi ⟨hu, hblocks⟩ hstep
  rw [Nat.zero_add] at hi
  simp only [liballocPage, bind_eq_ok, Prod.exists] at hstep
  obtain ⟨b, pmm, hb, hstep⟩ := hstep
  split at hstep
  · simp at hstep
  · simp only [bind_eq_ok, Prod.exists] at hstep
    obtain ⟨table, u₁, htable, hmap⟩ := hstep
    obtain ⟨rfl, htab⟩ := getTableAlloc_kernel htable
    rw [← htab] at hmap
    rcases findVspace_lowest hfind with rfl | ⟨j, rfl, hlow⟩
    · -- `-1` is not aligned
      obtain ⟨hal, -⟩ := mapPage_ok hmap
      unfold noVspace at hal
      omega
    · have hpage : (j * 4096 + i * 4096) % 0x100000000 / 4096 = (j + i) % 0x100000 := by omega
      have hblock := blockAfter_zero hb
      rw [hblocks, Nat.add_zero] at hblock
      have hclean := hmeets j hlow i hi
      rw [hblock, ← hpage] at hclean
      refine ⟨coherent_mapPage (m := { m with vm := u }) hu hclean hmap, fun k => ?_⟩
      obtain ⟨-, -, rfl⟩ := mapPage_ok hmap
      rw [setEntry_pmm, ← blockAfter_succ hb, hblocks, Nat.add_assoc, Nat.add_comm 1 k]

/-- The cached entry of a page that is not mapped is still the same after an access. -/
theorem Touched.clean {m' : Mmu} {block : Option Nat} (h : Touched m m') (hp : ¬ Mapped m.vm p)
    (hclean : Clean m p block) : Clean m' p block := by
  intro c b hc hb
  rw [h.unmapped p hp] at hc
  exact hclean c b hc hb

/-- A search for one page, with what is cached for it. -/
theorem findVspace_one (h : findVspace .kernel 1 vm = .ok (v, vm')) (hal : v % 1024 = 0) :
    LowestRun vm 1 (v / 4096) ∧ ¬ Mapped vm' (v / 4096) := by
  rcases findVspace_lowest h with rfl | ⟨j, rfl, hlow⟩
  · exact absurd hal (by decide)
  · rw [Nat.mul_div_cancel j (by omega)]
    refine ⟨hlow, ?_⟩
    rcases (findVspace_unmaps h).1 j with heq | hno
    · unfold Mapped
      rw [heq]
      exact hlow.not_mapped
    · exact hno

end Taken

/-! ## Directories and tables -/

section Tables

variable {object : DirPtr → Nat} {m : Mmu}

/-- **`page_directory_new`** at a page that is clean. -/
theorem pageDirectoryNew_yields (h : Coherent m) (hmeets : Op.pageDirectoryNew.Meets m) :
    Yields (pageDirectoryNew object m) (fun r => Coherent r.2) Quiet := by
  apply (yields_kernel _).bind
  intro r hblock
  obtain ⟨phys, pmm⟩ := r
  apply (touch_yields (m := { m with vm := { m.vm with pmm := pmm } }) h _).bind
  intro m₁ h₁
  apply (yields_kernel _).bind
  intro r hfind
  obtain ⟨virt, vm⟩ := r
  obtain ⟨hunmaps, -⟩ := findVspace_unmaps hfind
  apply (touch_yields (m := { m₁ with vm := vm }) (h₁.coherent.unmaps hunmaps) _).bind
  intro m₂ h₂
  apply (mapKernel_yields h₂.coherent _ _ _).bind
  intro m₃ h₃
  obtain ⟨hbut, htlb, ht, hal, hvm⟩ := h₃
  obtain ⟨hlow, hno⟩ := findVspace_one hfind hal
  have hclean : Clean m₂ (virt / 4096) (blockAfter m.vm.pmm 0) := by
    have hlow' : LowestRun m.vm 1 (virt / 4096) := by
      rw [h₁.vm] at hlow
      exact hlow.setPmm
    have hbefore := hmeets _ hlow'
    have hfirst : Clean m₁ (virt / 4096) (blockAfter m.vm.pmm 0) := h₁.clean hlow'.not_mapped hbefore
    exact h₂.clean hno hfirst
  have h₃ : Coherent m₃ := by
    apply hbut.coherent
    intro c hc
    rw [hvm, frameOf_taken ht]
    rw [htlb] at hc
    exact hclean c phys hc (blockAfter_safe hblock)
  refine (memset_yields h₃ _ _).bind fun m₄ h₄ => (touch_yields h₄.2 _).bind fun m₅ h₅ => ?_
  intro q c hc hmapped
  exact h₅.coherent q c hc hmapped

/-- **`get_table_alloc`** at a page that is clean, or is invalidated by chance. -/
theorem getTableAlloc_yields (h : Coherent m) (va : Word) (d : DirPtr) (hmeets : (Op.getTableAlloc va d).Meets m) :
    Yields (getTableAlloc object m va.toNat d) (fun r => Coherent r.2) Quiet := by
  apply (getTable_yields h _ _).bind
  intro r hr
  obtain ⟨table, m₁⟩ := r
  obtain ⟨h₁, htable⟩ := hr
  cases table with
  | some table => exact h₁.coherent
  | none =>
    have hmissing := getTable_eq_none.1 htable.symm
    refine (yields_kernel _).bind fun _ hd => (yields_kernel _).bind fun r hblock => ?_
    rw [assert_eq_ok] at hd
    obtain ⟨phys, pmm⟩ := r
    apply (yields_kernel _).bind
    intro r hfind
    obtain ⟨virt, vm⟩ := r
    rw [← findVspace_kernel] at hfind
    obtain ⟨hunmaps, -⟩ := findVspace_unmaps hfind
    apply (yields_kernel _).bind
    intro _ _
    have hstart : Coherent { m₁ with vm := vm } := h₁.coherent.unmaps hunmaps
    refine (touch_yields hstart _).bind fun m₂ h₂ => (touch_yields h₂.coherent _).bind fun m₃ h₃ =>
      (touch_yields h₃.coherent _).bind fun m₄ h₄ => ?_
    obtain ⟨a, rfl⟩ : ∃ a, d = .user a := by
      cases d with
      | kernel => exact absurd rfl hd
      | user a => exact ⟨a, rfl⟩
    have hadd : Coherent { m₄ with vm := m₄.vm.addTable (.user a) (va.toNat / 0x400000 % 1024) phys virt } := by
      intro q c hc hmapped
      unfold Mapped at hmapped
      rw [addTable_kernel] at hmapped ⊢
      exact h₄.coherent q c hc hmapped
    apply (mapKernel_yields hadd _ _ _).bind
    intro m₅ h₅
    obtain ⟨hbut, htlb, ht, hal, hvm⟩ := h₅
    obtain ⟨hlow, hno⟩ := findVspace_one hfind hal
    rw [h₁.vm] at hlow hblock
    have hlow' : LowestRun m.vm 1 (virt / 4096) := hlow.setPmm
    -- the address that is invalidated is the one asked for, not that of the table
    have hinv : Yields (invalidatePage m₅ va.toNat) Coherent Quiet := by
      apply invalidatePage_yields
      intro hva q c hq hc hmapped
      by_cases hqv : q = virt / 4096
      · subst hqv
        have hclean := h₁.clean hlow'.not_mapped (hmeets hmissing hva _ hlow' (Ne.symm hq))
        have hclean₂ : Clean m₂ (virt / 4096) (blockAfter m.vm.pmm 0) := h₂.clean hno hclean
        have hclean₃ := h₃.clean (by rw [h₂.vm]; exact hno) hclean₂
        have hclean₄ := h₄.clean (by rw [h₃.vm, h₂.vm]; exact hno) hclean₃
        rw [hvm, frameOf_taken ht]
        rw [htlb] at hc
        exact hclean₄ c phys hc (blockAfter_safe hblock)
      · exact hbut q c hqv hc hmapped
    exact hinv.bind fun m₆ h₆ => (touch_yields h₆ _).bind fun m₇ h₇ =>
      (memset_yields h₇.coherent _ _).bind fun m₈ h₈ => h₈.2

end Tables

/-! ## Runs -/

section Runs

variable {object : DirPtr → Nat}

/-- One operation. -/
theorem step_yields (m : Mmu) (op : Op) (h : Coherent m) (hmeets : op.Meets m) :
    Yields (step object m op) Coherent Quiet := by
  cases op with
  | copyFromUserspace pdir ptr n buffer =>
    apply (mapCopy_yields h _ _ _).bind
    intro r h₁
    obtain ⟨kptr, m₁⟩ := r
    cases kptr with
    | none => exact h₁
    | some kptr => exact (memcpy_yields h₁ _ _ _).bind fun m₂ h₂ => unmapFromKernel_yields h₂ _ _
  | copyFromUserspaceString pdir ptr n buffer rounds =>
    refine (yields_kernel _).bind fun _ _ => (yields_kernel _).bind fun r hr => ?_
    have h₁ := h.unmaps (findVspace_unmaps hr).1
    simp only
    split
    · exact h₁
    · exact stringPages_yields _ _ _ _ _ _ _ _ h₁
  | copyToUserspace pdir ptr n buffer =>
    apply (mapCopy_yields h _ _ _).bind
    intro r h₁
    obtain ⟨kptr, m₁⟩ := r
    cases kptr with
    | none => exact h₁
    | some kptr => exact (memcpy_yields h₁ _ _ _).bind fun m₂ h₂ => unmapFromKernel_yields h₂ _ _
  | mapBuffer pdir ptr length =>
    apply (yields_kernel _).bind
    intro r hr
    exact (mapUserspaceToKernel_yields (h.unmaps (findVspace_unmaps hr).1) _ _ _ _).bind fun _ h₁ => h₁
  | unmapFromKernel kptr n => exact unmapFromKernel_yields h _ _
  | liballocAlloc pages => exact (yields_kernel _).bind fun r hr => liballocAlloc_coherent h hmeets hr
  | liballocFree v pages => exact (yields_kernel _).bind fun vm hvm => h.unmaps (liballocFree_unmaps hvm)
  | pageDirectoryNew => exact (pageDirectoryNew_yields h hmeets).bind fun _ h₁ => h₁
  | getTableAlloc virtaddr directory => exact (getTableAlloc_yields h _ _ hmeets).bind fun _ h₁ => h₁
  | load va => exact (load_yields h _).bind fun _ h₁ => h₁
  | store va b => exact store_yields h _ _
  | loadCr3 => exact fun q c hc => by cases hc

end Runs

/-- **TLB coherence.** After a load of CR3, in every run whose operations take clean pages, every access to a mapped
page goes to the frame in the kernel directory, and would do so in the state the run ends in. -/
theorem kernel_accesses_coherent (object : DirPtr → Nat) (m : Mmu) (ops : List Op)
    (h : StepsMeet (step object) (fun m op => op.Meets m) (loadCr3 m) ops) :
    (∀ va, runSteps (step object) (loadCr3 m) ops ≠ .error (.stale va)) ∧
      ∀ m', runSteps (step object) (loadCr3 m) ops = .ok m' → Coherent m' := by
  have hstart : Coherent (loadCr3 m) := fun q c hc => by cases hc
  have hrun := runSteps_yields (E := Quiet) (fun m op => step_yields m op) ops hstart h
  constructor
  · intro va hva
    rw [hva] at hrun
    exact hrun va rfl
  · intro m' hm'
    rw [hm'] at hrun
    exact hrun

/-! ## A page that is used again -/

theorem copyVm_size : 64 ≤ 0xFFFFF := by decide

/-- A machine whose kernel pages 16 to 31 are mapped, to the frames of the same numbers, and whose others are free.
A process sees frame 7 everywhere in its first table, which the kernel sees at page 17. -/
def copyVm : Vm where
  pmm := ⟨fun i => if i = 1 then 0#32 else 0xFFFFFFFF#32, 64, copyVm_size⟩
  dirs
    | .kernel => {
      physicalTablesVirt := 0
      physicalTables := fun _ => 3#32
      tables := fun k => some ⟨0, fun i =>
        if k = 0 ∧ 16 ≤ i ∧ i < 32 then BitVec.ofNat 32 (i * 4096) ||| (pagePresent ||| pageReadwrite) else 0#32⟩
      physicalAddress := 0
      refcount := -1 }
    | .user _ => {
      physicalTablesVirt := 0x12000
      physicalTables := fun k => if k = 0 then 7#32 else 0#32
      tables := fun k => if k = 0 then some ⟨0x11000, fun _ => 0x7007#32⟩ else none
      physicalAddress := 0
      refcount := 1 }
  nextDir := 1
  frames _ _ := 0#8

def copyMmu : Mmu := ⟨copyVm, fun _ => none⟩

/-- The objects of the directories are at page 19. -/
def objectAt (_ : DirPtr) : Nat := 0x13000

/-- Two bytes from user memory to a buffer at page 16: they are read through page 1. -/
def copyTwo : Op := .copyFromUserspace (.user 0) 0x5000#32 2#32 0x10000

/-- A page of the heap is used, user memory is copied through the next page, and after a load of CR3 the heap takes
that page and uses it. -/
def reuseRun : List Op :=
  [.liballocAlloc 1, .store 0x1000 1#8, copyTwo, .loadCr3, .liballocAlloc 1, .store 0x2000 1#8]

theorem kernel_accesses_coherent_run :
    ∃ m, runSteps (step objectAt) (loadCr3 copyMmu) reuseRun = .ok m ∧ Coherent m := by
  have hmeets : StepsMeet (step objectAt) (fun m op => op.Meets m) (loadCr3 copyMmu) reuseRun := by
    have hempty : ∀ m, (Op.liballocAlloc 1).Meets (loadCr3 m) := by
      intro m j _ k _ c b hc
      cases hc
    refine ⟨hempty _, fun m₁ _ => ⟨trivial, fun m₂ _ => ⟨trivial, fun m₃ _ => ⟨trivial, fun m₄ h₄ => ?_⟩⟩⟩⟩
    simp only [step, pure_eq_ok] at h₄
    subst h₄
    exact ⟨hempty _, fun _ _ => ⟨trivial, fun _ _ => trivial⟩⟩
  obtain ⟨m, hm⟩ := exists_ok (x := runSteps (step objectAt) (loadCr3 copyMmu) reuseRun) rfl
  exact ⟨m, hm, (kernel_accesses_coherent objectAt copyMmu _ hmeets).2 m hm⟩

/-- After a copy, page 1 is cached with the user's frame and free. The heap, a new directory or a new table takes it,
and the first access there goes to the user's frame. -/
theorem copy_leaves_stale_page :
    runSteps (step objectAt) (loadCr3 copyMmu) [copyTwo, .liballocAlloc 1, .store 0x1000 1#8] =
        .error (.stale 0x1000) ∧
      runSteps (step objectAt) (loadCr3 copyMmu) [copyTwo, .pageDirectoryNew] = .error (.stale 0x1000) ∧
      runSteps (step objectAt) (loadCr3 copyMmu) [copyTwo, .getTableAlloc 0x400000#32 (.user 0)] =
        .error (.stale 0x1000) ∧
      ¬ ∀ object m ops va, runSteps (step object) (loadCr3 m) ops ≠ .error (.stale va) := by
  have hnew : runSteps (step objectAt) (loadCr3 copyMmu) [copyTwo, .pageDirectoryNew] = .error (.stale 0x1000) := rfl
  exact ⟨rfl, hnew, rfl, fun h => h _ _ _ _ hnew⟩

end Myunix.Tlb
