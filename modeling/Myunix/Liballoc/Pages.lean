import Myunix.Liballoc.View
import Myunix.Pmm.FindRegion
import Myunix.Process.KstackFree
import Myunix.Syscall.Munmap
import Myunix.Vmm.VspaceRuns

/-!
# Pages for the heap

`liballoc_alloc` takes the first run of free pages of the kernel directory and a free block for each of them, and
`liballoc_free` gives both back.

* `liballocAlloc_spec`: the pages are taken (`PagesTaken`) exactly when there is such a run and there are as many free
  blocks (`PagesLeft`); otherwise the kernel stops.
* `liballocFree_spec`: the pages of the heap are given back (`PagesGiven`).
-/

namespace Myunix.Liballoc

open Lib Pmm Vmm Syscall Process

/-- There are `n` free pages in a row, and as many free blocks. -/
def PagesLeft (vm : Vm) (n : Nat) : Prop :=
  (∃ j, 1 ≤ j ∧ j < 0x100000 ∧ FreeRun vm .kernel j n) ∧ n ≤ freeBlocks vm.pmm

/-- Page `x` is one of the `n` pages from page `j` on. -/
def PageIn (j n x : Nat) : Prop := j ≤ x ∧ x < j + n

instance (j n x : Nat) : Decidable (PageIn j n x) := inferInstanceAs (Decidable (_ ∧ _))

/-- The `n` free pages from page `j` on are mapped now, each to a block that was free. -/
structure PagesTaken (vm : Vm) (j n : Nat) (vm' : Vm) : Prop where
  stores : KernelStores (PageIn j n) vm vm'
  tables : KernelTables vm'
  frames : vm'.frames = vm.frames
  size : vm'.pmm.size = vm.pmm.size
  present : ∀ x, PageIn j n x → vm'.entry .kernel x &&& pagePresent ≠ 0#32
  fresh : ∀ x, PageIn j n x →
    kframe vm' x < vm.pmm.size ∧ kframe vm' x ≠ 0 ∧ vm.pmm.used (kframe vm' x) = false ∧
      vm'.pmm.used (kframe vm' x) = true
  distinct : ∀ x y, PageIn j n x → PageIn j n y → kframe vm' x = kframe vm' y → x = y
  used : ∀ c, (∀ x, PageIn j n x → c ≠ kframe vm' x) → vm'.pmm.used c = vm.pmm.used c

/-- The `n` pages from page `j` on are free now, and so are their blocks. -/
structure PagesGiven (vm : Vm) (j n : Nat) (vm' : Vm) : Prop where
  stores : KernelStores (PageIn j n) vm vm'
  tables : KernelTables vm'
  frames : vm'.frames = vm.frames
  size : vm'.pmm.size = vm.pmm.size
  free : ∀ x, PageIn j n x → vm'.entry .kernel x = 0#32
  freed : ∀ x, PageIn j n x → vm'.pmm.used (kframe vm x) = false
  used : ∀ c, (∀ x, PageIn j n x → c ≠ kframe vm x) → vm'.pmm.used c = vm.pmm.used c

/-! ## One block, one page -/

section Page

variable {p : BlockMap} {vm u : Vm} {x b : Nat}

/-- `pmm_alloc_blocks(1)`. -/
theorem pmmAllocBlocks_one (hzero : p.used 0 = true) :
    (∃ b q, b < wholeBlocks p ∧ p.used b = false ∧ pmmAllocBlocks p 1 = .ok (b * 4096, q) ∧ q.size = p.size ∧
        ∀ c, q.used c = (p.used c || decide (c = b))) ∨
      (freeBlocks p = 0 ∧ pmmAllocBlocks p 1 = .ok (0, p)) := by
  rcases pmmAllocBlocksSafe_one hzero with ⟨b, q, hb, hfree, halloc, hs, hu⟩ | ⟨hall, -⟩
  · simp only [pmmAllocBlocksSafe, bind_eq_ok, assert_eq_ok, pure_eq_ok, Prod.exists, Prod.mk.injEq] at halloc
    obtain ⟨v, p', halloc, -, -, rfl, rfl⟩ := halloc
    exact Or.inl ⟨b, _, hb, hfree, halloc, hs, hu⟩
  · refine Or.inr ⟨freeBlocks_eq_zero hall, ?_⟩
    obtain ⟨b, hb, hfree, -⟩ | ⟨-, hfind⟩ := pmmFindRegion_one hzero
    · rw [hall b hb] at hfree
      cases hfree
    · simp only [pmmAllocBlocks, hfind, ok_bind, if_true, assert_pos (show 1 ≠ 0 by omega)]
      rfl

/-- What a page gets: a block that was free, through an entry that is present. -/
theorem liballocPage_spec (hk : KernelTables u) (hzero : u.pmm.used 0 = true) (hx : x < 0x100000) :
    (∃ b q, b < wholeBlocks u.pmm ∧ b ≠ 0 ∧ u.pmm.used b = false ∧ q.size = u.pmm.size ∧
        (∀ c, q.used c = (u.pmm.used c || decide (c = b))) ∧
        liballocPage (x * 4096) u = .ok ({ u with pmm := q }.setEntry .kernel x
          (BitVec.ofNat 32 (b * 4096) ||| (pagePresent ||| pageReadwrite)))) ∨
      (freeBlocks u.pmm = 0 ∧ liballocPage (x * 4096) u = .error .assertion) := by
  rcases pmmAllocBlocks_one hzero with ⟨b, q, hb, hfree, halloc, hs, hu⟩ | ⟨hnone, halloc⟩
  · refine Or.inl ⟨b, q, hb, ?_, hfree, hs, hu, ?_⟩
    · rintro rfl
      rw [hzero] at hfree
      cases hfree
    · have hb0 : b * 4096 ≠ 0 := by
        intro h0
        obtain rfl : b = 0 := by omega
        rw [hzero] at hfree
        cases hfree
      have hkq : KernelTables { u with pmm := q } := hk
      have hindex : x * 4096 / 0x400000 < 1024 := by omega
      have hmap := mapPage_eq (p := b * 4096) (f := pagePresent ||| pageReadwrite) (by omega : x * 4096 % 1024 = 0)
        (hkq _ hindex).1 (hkq _ hindex).2
      rw [getTable_eq_some.2 ⟨(hkq _ hindex).1, rfl⟩, Nat.mul_div_cancel x (by omega)] at hmap
      simp only [liballocPage, halloc, ok_bind, if_neg hb0,
        getTableAlloc_kernel_eq hkq (by omega : x * 4096 < 0x100000000)]
      exact hmap
  · refine Or.inr ⟨hnone, ?_⟩
    simp only [liballocPage, halloc, ok_bind, if_true]
    rfl

theorem kframe_new (hb : b < 0x100000) {e : Word}
    (he : e = BitVec.ofNat 32 (b * 4096) ||| (pagePresent ||| pageReadwrite)) :
    frameOf e = b := by
  rw [he, frameOf_or (by decide), frameOf_ofNat hb]

theorem present_new {e : Word} : (e ||| (pagePresent ||| pageReadwrite)) &&& pagePresent ≠ 0#32 := by
  intro h
  have hbit := congrArg (fun w => w.getLsbD 0) h
  have hflag : (pagePresent ||| pageReadwrite).getLsbD 0 = true := rfl
  have hpres : pagePresent.getLsbD 0 = true := rfl
  simp only [BitVec.getLsbD_and, BitVec.getLsbD_or, hflag, hpres, Bool.or_true, Bool.and_true] at hbit
  exact absurd hbit (by decide)

end Page

/-! ## `liballoc_alloc` -/

section Alloc

variable {vm s u : Vm} {j n i x v : Nat}

theorem PageIn.succ : PageIn j (i + 1) x ↔ PageIn j i x ∨ x = j + i := by
  unfold PageIn
  omega

/-- The search of `find_vspace` changes nothing but entries. -/
theorem findVspace_rest (h : findVspace .kernel n vm = .ok (v, s)) : s.pmm = vm.pmm ∧ s.frames = vm.frames := by
  rw [findVspace_kernel] at h
  simp only [findVspaceKernel, findVspaceWith, bind_eq_ok, assert_eq_ok] at h
  obtain ⟨-, hn, h⟩ := h
  rcases vspaceFrom_spec (quiet_eq .kernel) kernelTable_spec hn (by omega) h with
    ⟨-, rfl, -⟩ | ⟨j, s₁, -, -, -, -, -, hs₁, hres⟩
  · exact ⟨rfl, rfl⟩
  · subst hs₁
    refine forRange_keeps (I := fun u => u.pmm = vm.pmm ∧ u.frames = vm.frames) ?_ hres ⟨rfl, rfl⟩
    intro k u u' _ _ hu hmap
    obtain ⟨-, -, rfl⟩ := mapPage_ok hmap
    exact hu

/-- The pages taken after some rounds. -/
theorem PagesTaken.round (h : PagesTaken vm j i u) (hx : j + i < 0x100000) {b : Nat} {q : BlockMap}
    (hb : b < wholeBlocks u.pmm) (hb0 : b ≠ 0) (hfree : u.pmm.used b = false) (hs : q.size = u.pmm.size)
    (hq : ∀ c, q.used c = (u.pmm.used c || decide (c = b))) :
    PagesTaken vm j (i + 1) ({ u with pmm := q }.setEntry .kernel (j + i)
      (BitVec.ofNat 32 (b * 4096) ||| (pagePresent ||| pageReadwrite))) := by
  have hsize : b < u.pmm.size := by unfold wholeBlocks at hb; omega
  have hb20 : b < 0x100000 := by have := u.pmm.size_le; omega
  have ht : ({ u with pmm := q } : Vm).HasTable .kernel ((j + i) / 1024) := (h.tables _ (by omega)).1
  have hentry : ∀ x, ({ u with pmm := q }.setEntry .kernel (j + i)
      (BitVec.ofNat 32 (b * 4096) ||| (pagePresent ||| pageReadwrite))).entry .kernel x =
      if x = j + i then BitVec.ofNat 32 (b * 4096) ||| (pagePresent ||| pageReadwrite) else u.entry .kernel x := by
    intro x
    rw [entry_setEntry ht]
    simp only [true_and]
    rfl
  have hnew : kframe ({ u with pmm := q }.setEntry .kernel (j + i)
      (BitVec.ofNat 32 (b * 4096) ||| (pagePresent ||| pageReadwrite))) (j + i) = b := by
    unfold kframe
    rw [hentry, if_pos rfl]
    exact kframe_new hb20 rfl
  have hold : ∀ x, PageIn j i x → kframe ({ u with pmm := q }.setEntry .kernel (j + i)
      (BitVec.ofNat 32 (b * 4096) ||| (pagePresent ||| pageReadwrite))) x = kframe u x := by
    intro x hx
    unfold kframe
    rw [hentry, if_neg (by unfold PageIn at hx; omega)]
  have hne : ∀ x, PageIn j i x → kframe u x ≠ b := by
    intro x hx he
    have := (h.fresh x hx).2.2.2
    rw [he, hfree] at this
    cases this
  have hfreeVm : vm.pmm.used b = false := by rw [← h.used b fun x hx => (hne x hx).symm]; exact hfree
  have htables : KernelTables { u with pmm := q } := h.tables
  refine ⟨?_, htables.setEntry, h.frames, hs.trans h.size, ?_, ?_, ?_, ?_⟩
  · refine (h.stores.imp fun m hm => PageIn.succ.2 (Or.inl hm)).trans ?_
    refine ⟨fun c => dirs_setEntry_kernel, rfl, fun m hm => ?_⟩
    rw [hentry, if_neg fun he => hm (PageIn.succ.2 (Or.inr he))]
  · intro x hx
    rw [hentry]
    rcases PageIn.succ.1 hx with hx | rfl
    · rw [if_neg (by unfold PageIn at hx; omega)]
      exact h.present x hx
    · rw [if_pos rfl]
      exact present_new
  · intro x hx
    show _ ∧ _ ∧ _ ∧ q.used _ = true
    rcases PageIn.succ.1 hx with hx | rfl
    · obtain ⟨h1, h2, h3, h4⟩ := h.fresh x hx
      rw [hold x hx, hq, h4]
      exact ⟨h1, h2, h3, rfl⟩
    · rw [hnew, hq]
      exact ⟨h.size ▸ hsize, hb0, hfreeVm, by simp⟩
  · intro x y hx hy he
    rcases PageIn.succ.1 hx with hx | rfl <;> rcases PageIn.succ.1 hy with hy | rfl
    · rw [hold x hx, hold y hy] at he
      exact h.distinct x y hx hy he
    · rw [hold x hx, hnew] at he
      exact absurd he (hne x hx)
    · rw [hold y hy, hnew] at he
      exact absurd he.symm (hne y hy)
    · rfl
  · intro c hc
    have hcb : c ≠ b := hnew ▸ hc (j + i) (PageIn.succ.2 (Or.inr rfl))
    show q.used c = _
    rw [hq, decide_eq_false hcb, Bool.or_false]
    exact h.used c fun x hx => hold x hx ▸ hc x (PageIn.succ.2 (Or.inl hx))

/-- The loop of `liballoc_alloc` over pages that exist. -/
theorem liballocAlloc_loop (rest : Nat) (hn : j + (i + rest) ≤ 0x100000) (hstart : PagesTaken vm j i u)
    (hzero : u.pmm.used 0 = true) (hcount : freeBlocks u.pmm + i = freeBlocks vm.pmm) :
    (∃ vm', forRange (fun i vm => liballocPage ((j * 4096 + i * 4096) % 0x100000000) vm) i rest u = .ok vm' ∧
        PagesTaken vm j (i + rest) vm' ∧ i + rest ≤ freeBlocks vm.pmm) ∨
      (forRange (fun i vm => liballocPage ((j * 4096 + i * 4096) % 0x100000000) vm) i rest u = .error .assertion ∧
        freeBlocks vm.pmm < i + rest) := by
  induction rest generalizing i u with
  | zero => exact Or.inl ⟨u, rfl, hstart, by omega⟩
  | succ rest ih =>
    have haddr : (j * 4096 + i * 4096) % 0x100000000 = (j + i) * 4096 := by omega
    rw [forRange_succ, haddr]
    rcases liballocPage_spec hstart.tables hzero (x := j + i) (by omega) with
      ⟨b, q, hb, hb0, hfree, hs, hq, hpage⟩ | ⟨hnone, hpage⟩
    · rw [hpage, ok_bind]
      have hmark := freeBlocks_mark hs hq hb hfree
      have hzero' : q.used 0 = true := by rw [hq, hzero, Bool.true_or]
      have h := ih (i := i + 1) (by omega) (hstart.round (by omega) hb hb0 hfree hs hq) hzero'
        (by rw [setEntry_pmm]; dsimp only; omega)
      rwa [show i + 1 + rest = i + (rest + 1) by omega] at h
    · rw [hpage, error_bind]
      exact Or.inr ⟨rfl, by omega⟩

/-- Without address space, the first page has no address. -/
theorem liballocPage_noVspace (hk : KernelTables u) (hzero : u.pmm.used 0 = true) :
    liballocPage noVspace u = .error .assertion := by
  rcases pmmAllocBlocks_one hzero with ⟨b, q, hb, hfree, halloc, hs, hu⟩ | ⟨-, halloc⟩
  · simp only [liballocPage, halloc, ok_bind]
    split
    · rfl
    · have hkq : KernelTables { u with pmm := q } := hk
      rw [getTableAlloc_kernel_eq hkq (by unfold noVspace; omega), ok_bind]
      rfl
  · simp only [liballocPage, halloc, ok_bind, if_true]
    rfl

/-- **`liballoc_alloc`** takes the pages when there are as many, and stops the kernel otherwise. -/
theorem liballocAlloc_spec (hk : KernelTables vm) (hzero : vm.pmm.used 0 = true) (hn : n ≠ 0)
    (htop : RunBelowTop vm .kernel n) :
    (∃ j vm', liballocAlloc n vm = .ok (j * 4096, vm') ∧ 1 ≤ j ∧ j + n < 0x100000 ∧
        (∀ x, PageIn j n x → vm.entry .kernel x = 0#32) ∧ PagesTaken vm j n vm' ∧ PagesLeft vm n) ∨
      (liballocAlloc n vm = .error .assertion ∧ ¬ PagesLeft vm n) := by
  obtain ⟨v, s, hfind, hks⟩ := findVspaceKernel_total hk hn
  rw [← findVspace_kernel] at hfind
  obtain ⟨hpmm, hframes⟩ := findVspace_rest hfind
  rcases findVspace_stores hfind with ⟨rfl, rfl⟩ | ⟨j, h1, h2, rfl, hfree, hfirst, hstores⟩
  · refine Or.inr ⟨?_, fun hleft => ?_⟩
    · obtain ⟨rest, rfl⟩ := Nat.exists_eq_succ_of_ne_zero hn
      have hpage := liballocPage_noVspace hk hzero
      have haddr : (noVspace + 0 * 4096) % 0x100000000 = noVspace := rfl
      simp only [liballocAlloc, hfind, ok_bind, forRange_succ, haddr, hpage, error_bind]
    · -- the search would have found the run
      obtain ⟨-, ⟨-, -, hno⟩ | ⟨j, -, -, -, hv, -⟩⟩ := findVspace_ok hfind
      · obtain ⟨j, h1, h2, hrun⟩ := hleft.1
        exact hno j h1 h2 hrun
      · unfold noVspace at hv
        omega
  · have hbelow : j + n < 0x100000 := by
      obtain ⟨i, hi1, hi, hif⟩ := htop ⟨j, h1, h2, hfree⟩
      by_contra hj
      exact hfirst i hi1 (by omega) ((freeRun_of_below hi).2 hif)
    have hrun : ∀ m, InRun j n m → PageIn j n m := by
      rintro m ⟨k, hk, rfl⟩
      rw [Nat.mod_eq_of_lt (by omega)]
      exact ⟨by omega, by omega⟩
    have hstart : PagesTaken s j 0 s :=
      ⟨KernelStores.refl _ s, hks, rfl, rfl, fun x hx => absurd hx (by unfold PageIn; omega),
        fun x hx => absurd hx (by unfold PageIn; omega), fun x y hx => absurd hx (by unfold PageIn; omega),
        fun _ _ => rfl⟩
    have hwas : ∀ x, PageIn j n x → vm.entry .kernel x = 0#32 := by
      intro x hx
      have := (freeRun_of_below hbelow).1 hfree (x - j) (by unfold PageIn at hx; omega)
      rwa [show j + (x - j) = x by unfold PageIn at hx; omega] at this
    rcases liballocAlloc_loop n (by omega) hstart (hpmm ▸ hzero) (Nat.add_zero _) with ⟨vm', hloop, htaken, hcount⟩ |
      ⟨hloop, hcount⟩
    · rw [Nat.zero_add] at htaken hcount
      refine Or.inl ⟨j, vm', ?_, h1, hbelow, hwas, ?_, ⟨j, h1, h2, hfree⟩, hpmm ▸ hcount⟩
      · simp only [liballocAlloc, hfind, ok_bind, hloop]
        rfl
      · exact ⟨(hstores.imp hrun).trans htaken.stores, htaken.tables, htaken.frames.trans hframes,
          htaken.size.trans (by rw [hpmm]), htaken.present, hpmm ▸ htaken.fresh, htaken.distinct,
          hpmm ▸ htaken.used⟩
    · rw [Nat.zero_add, hpmm] at hcount
      refine Or.inr ⟨?_, fun hleft => absurd hleft.2 (Nat.not_le.2 hcount)⟩
      simp only [liballocAlloc, hfind, ok_bind, hloop, error_bind]

end Alloc

/-! ## `liballoc_free` -/

section Free

variable {vm u : Vm} {P : Nat → Prop} {j n i x : Nat}

/-- A page that is present: its entry is cleared and its block is freed. -/
theorem liballocFreePage_spec (hk : KernelTables u) (hx : x < 0x100000)
    (hpres : u.entry .kernel x &&& pagePresent ≠ 0#32) (hsize : kframe u x < u.pmm.size) :
    ∃ q, q.size = u.pmm.size ∧ (∀ c, q.used c = (u.pmm.used c && !decide (c = kframe u x))) ∧
      liballocFreePage (x * 4096) u = .ok { u.setEntry .kernel x 0#32 with pmm := q } := by
  have hindex : x * 4096 / 0x400000 < 1024 := by omega
  have hmap := mapPage_eq (p := 0) (f := 0#32) (by omega : x * 4096 % 1024 = 0) (hk _ hindex).1 (hk _ hindex).2
  have htab := getTable_eq_some.2 ⟨(hk _ hindex).1, rfl⟩
  have hres : u.entry .kernel x ≠ pageValueReserved := by
    intro he
    rw [he] at hpres
    exact hpres rfl
  obtain ⟨q, hq⟩ := pmmUnsetBlock_eq hsize
  obtain ⟨-, hqs, hqu⟩ := pmmUnsetBlock_ok hq
  refine ⟨q, hqs, hqu, ?_⟩
  rw [Nat.mul_div_cancel x (by omega)] at hmap
  unfold liballocFreePage
  simp only [hmap]
  rw [htab, getPage_table, ok_bind, Nat.mul_div_cancel x (by omega), if_neg hres]
  simp only [ok_bind, pmmFreeBlocks_one, frame_toNat]
  rw [show (u.setEntry .kernel x (BitVec.ofNat 32 0 ||| 0#32)).pmm = u.pmm from rfl]
  unfold kframe at hq
  rw [hq]
  rfl

/-- **`liballoc_free`** gives the pages back. -/
theorem liballocFree_spec (hp : HeapPages P vm) (hk : KernelTables vm) (hj : 1 ≤ j) (hP : ∀ x, PageIn j n x → P x) :
    ∃ vm', liballocFree (j * 4096) n vm = .ok vm' ∧ PagesGiven vm j n vm' := by
  unfold liballocFree
  rw [assert_bind (by omega)]
  refine forRange_zero_ok (P := fun i u => PagesGiven vm j i u) (fun i u hi hu => ?_) ?_
  · have hx := hP (j + i) ⟨by omega, by omega⟩
    have hlt := hp.lt _ hx
    have hsame : u.entry .kernel (j + i) = vm.entry .kernel (j + i) :=
      hu.stores.kernel _ (by unfold PageIn; omega)
    have hframe : kframe u (j + i) = kframe vm (j + i) := by
      unfold kframe
      rw [hsame]
    have haddr : (j * 4096 + i * 4096) % 0x100000000 = (j + i) * 4096 := by omega
    obtain ⟨q, hqs, hqu, hpage⟩ := liballocFreePage_spec hu.tables hlt (hsame ▸ hp.present _ hx)
      (by rw [hframe, hu.size]; exact (hp.used _ hx).1)
    refine ⟨_, by rw [haddr]; exact hpage, ?_⟩
    have ht : u.HasTable .kernel ((j + i) / 1024) := (hu.tables _ (by omega)).1
    have hentry : ∀ y, ({ u.setEntry .kernel (j + i) 0#32 with pmm := q } : Vm).entry .kernel y =
        if y = j + i then 0#32 else u.entry .kernel y := by
      intro y
      have h : (u.setEntry .kernel (j + i) 0#32).entry .kernel y = _ := entry_setEntry ht
      simp only [true_and] at h
      exact h
    have htables : KernelTables (u.setEntry .kernel (j + i) 0#32) := hu.tables.setEntry
    refine ⟨?_, htables, hu.frames, hqs.trans hu.size, fun y hy => ?_, fun y hy => ?_, fun c hc => ?_⟩
    · have husers : ∀ c, (u.setEntry .kernel (j + i) 0#32).dirs (.user c) = u.dirs (.user c) :=
        fun c => dirs_setEntry_kernel
      refine (hu.stores.imp fun m hm => PageIn.succ.2 (Or.inl hm)).trans ⟨husers, rfl, fun m hm => ?_⟩
      rw [hentry, if_neg fun he => hm (PageIn.succ.2 (Or.inr he))]
    · rw [hentry]
      rcases PageIn.succ.1 hy with hy | rfl
      · rw [hu.free y hy]
        split <;> rfl
      · rw [if_pos rfl]
    · show q.used _ = false
      rw [hqu, hframe]
      rcases PageIn.succ.1 hy with hy | rfl
      · rw [hu.freed y hy, Bool.false_and]
      · simp
    · show q.used c = _
      rw [hqu, hframe, decide_eq_false (hc _ (PageIn.succ.2 (Or.inr rfl))), Bool.not_false, Bool.and_true]
      exact hu.used c fun y hy => hc y (PageIn.succ.2 (Or.inl hy))
  · exact ⟨KernelStores.refl _ vm, hk, rfl, rfl, fun x hx => absurd hx (by unfold PageIn; omega),
      fun x hx => absurd hx (by unfold PageIn; omega), fun _ _ => rfl⟩

end Free

end Myunix.Liballoc
