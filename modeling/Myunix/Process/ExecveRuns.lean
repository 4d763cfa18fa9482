import Myunix.Process.ExecveImage
import Myunix.Process.KstackFree
import Myunix.Process.KstackRuns

/-!
# `process_execve` (`process.c`)

`process_execve` takes a block for every page it maps, and a block and a page of the kernel directory for every table
it adds; where one is missing, the kernel halts. `Room U n vm` says that there is room for `n` more of each. Every part
takes a number of them that is known before, and leaves the rest. So from the room before the call one sees that it
returns (`process_execve_returns`). When it has returned, with this room or another, the program finds its arguments
(`process_execve_image`).
-/

namespace Myunix.Process

open Lib Pmm Vmm Syscall

/-! ## Room -/

/-- The pages of the kernel directory from page `t` on are free. -/
def FreeFrom (t : Nat) (vm : Vm) : Prop := ∀ m, t ≤ m → m < 0x100000 → vm.entry .kernel m = 0#32

/-- **Room for `n` more.** Of the kernel directory the pages `U` are in use, and behind some page all are free. The
directories of the users pass the checks of `map_page` and `dump_directory`. -/
structure Room (U : Nat → Prop) (n : Nat) (vm : Vm) : Prop where
  kernel : KernelTables vm
  zero : vm.pmm.used 0 = true
  blocks : n ≤ freeBlocks vm.pmm
  pages : ∃ t, 1 ≤ t ∧ t + n < 0x100000 ∧ FreeFrom t vm
  inUse : ∀ m, U m → m < 0x100000 ∧ vm.entry .kernel m ≠ 0#32
  aligned : ∀ a k, vm.tableVirt ⟨.user a, k⟩ % 1024 = 0
  agree : ∀ a, TablesAgree (vm.dirs (.user a))

section Room

variable {U V : Nat → Prop} {a k m n v : Nat} {vm u : Vm} {w : Word}

theorem Room.mono (h : Room U n vm) (hk : k ≤ n) (hV : ∀ m, V m → U m) : Room V k vm := by
  obtain ⟨t, h1, h2, hfree⟩ := h.pages
  exact ⟨h.kernel, h.zero, Nat.le_trans hk h.blocks, ⟨t, h1, by omega, hfree⟩, fun m hm => h.inUse m (hV m hm),
    h.aligned, h.agree⟩

theorem Room.le (h : Room U n vm) (hk : k ≤ n) : Room U k vm := h.mono hk fun _ hm => hm

/-- Physical memory does not matter. -/
theorem Room.setFrames (h : Room U n vm) (frames : Nat → Nat → Byte) : Room U n { vm with frames := frames } :=
  ⟨h.kernel, h.zero, h.blocks, h.pages, h.inUse, h.aligned, h.agree⟩

/-- A store to a page of the kernel directory that is in use. -/
theorem Room.setKernel (h : Room U n vm) (hm : U m) (hV : ∀ k, V k → U k ∧ (k = m → w ≠ 0#32)) :
    Room V n (vm.setEntry .kernel m w) := by
  obtain ⟨hlt, hne⟩ := h.inUse m hm
  obtain ⟨t, h1, h2, hfree⟩ := h.pages
  have ht : vm.HasTable .kernel (m / 1024) := (h.kernel _ (by omega)).1
  have hentry : ∀ k, (vm.setEntry .kernel m w).entry .kernel k = if k = m then w else vm.entry .kernel k := by
    intro k
    rw [entry_setEntry ht]
    simp only [true_and]
  refine ⟨h.kernel.setEntry, h.zero, h.blocks, ⟨t, h1, h2, fun k hk hk' => ?_⟩,
    fun k hk => ⟨(h.inUse k (hV k hk).1).1, ?_⟩, fun b i => ?_, fun b => ?_⟩
  · have hkm : k ≠ m := by
      rintro rfl
      exact hne (hfree k hk hk')
    rw [hentry, if_neg hkm]
    exact hfree k hk hk'
  · rw [hentry]
    split
    next hkm => exact (hV k hk).2 hkm
    · exact (h.inUse k (hV k hk).1).2
  · rw [tableVirt_setEntry]
    exact h.aligned b i
  · rw [dirs_setEntry_kernel]
    exact h.agree b

/-- A store to a directory of a user. -/
theorem Room.setUser (h : Room U n vm) (ht : vm.HasTable (.user a) (m / 1024)) :
    Room U n (vm.setEntry (.user a) m w) := by
  obtain ⟨t, h1, h2, hfree⟩ := h.pages
  refine ⟨h.kernel.setEntry, h.zero, h.blocks, ⟨t, h1, h2, fun k hk hk' => ?_⟩, fun k hk => ⟨(h.inUse k hk).1, ?_⟩,
    fun b i => ?_, fun b => ?_⟩
  · rw [entry_kernel_setUser ht]
    exact hfree k hk hk'
  · rw [entry_kernel_setUser ht]
    exact (h.inUse k hk).2
  · rw [tableVirt_setEntry]
    exact h.aligned b i
  · have hphys : ((vm.setEntry (.user a) m w).dirs (.user b)).physicalTables = (vm.dirs (.user b)).physicalTables :=
      physicalTables_setEntry.1
    have hsome : ∀ i, (((vm.setEntry (.user a) m w).dirs (.user b)).tables i).isSome ↔
        ((vm.dirs (.user b)).tables i).isSome := by
      intro i
      rw [Option.isSome_iff_exists, Option.isSome_iff_exists]
      exact hasTable_setEntry
    exact (h.agree b).congr hphys hsome

/-- A block is taken. -/
theorem Room.block (h : Room U (n + 1) vm) :
    ∃ phys pmm, pmmAllocBlocksSafe vm.pmm 1 = .ok (phys, pmm) ∧ Room U n { vm with pmm := pmm } := by
  obtain ⟨t, h1, h2, hfree⟩ := h.pages
  have hblocks := h.blocks
  rcases pmmAllocBlocksSafe_one h.zero with ⟨b, q, hb, hun, halloc, hsize, hused⟩ | ⟨hall, -⟩
  · have hcount := freeBlocks_mark hsize hused hb hun
    refine ⟨b * 4096, q, halloc, h.kernel, ?_, ?_, ⟨t, h1, by omega, hfree⟩, h.inUse, h.aligned, h.agree⟩
    · show q.used 0 = true
      rw [hused, h.zero, Bool.true_or]
    · show n ≤ freeBlocks q
      omega
  · rw [freeBlocks_eq_zero hall] at hblocks
    omega

/-- Pages of the kernel directory are found. -/
theorem Room.find (h : Room U (n + k) vm) (hk : k ≠ 0) :
    ∃ j u, findVspace .kernel k vm = .ok (j * 4096, u) ∧ 1 ≤ j ∧ j + k < 0x100000 ∧ SameBut j k vm u ∧
      Room (fun m => U m ∨ j ≤ m ∧ m < j + k) n u := by
  obtain ⟨t, h1, h2, hfree⟩ := h.pages
  have hrun : FreeRun vm .kernel t k := (freeRun_of_below (by omega)).2 fun i hi => hfree _ (by omega) (by omega)
  rcases findVspace_cases h.kernel hk (by omega) with ⟨-, hno⟩ | ⟨j, u, hfind, hj1, hj2, hjfree, hfirst, hcase⟩
  · exact absurd hrun (hno t h1 (by omega))
  · have hle : j ≤ t := by
      by_contra hlt
      exact hfirst t h1 (by omega) hrun
    rcases hcase with ⟨hlt, hsame, -, hres⟩ | ⟨hge, -⟩
    · have hzero := (freeRun_of_below hlt).1 hjfree
      refine ⟨j, u, hfind, hj1, hlt, hsame, hsame.kernelTables h.kernel, ?_, ?_, ⟨t + k, by omega, by omega, ?_⟩,
        fun m hm => ?_, fun b i => ?_, fun b => ?_⟩
      · rw [hsame.pmm]
        exact h.zero
      · rw [hsame.pmm]
        exact Nat.le_trans (Nat.le_add_right n k) h.blocks
      · intro m hm hm'
        rw [hsame.entry m (Or.inr (by omega))]
        exact hfree m (by omega) hm'
      · by_cases hin : j ≤ m ∧ m < j + k
        · have hm' := hres (m - j) (by omega)
          rw [show j + (m - j) = m by omega] at hm'
          refine ⟨by omega, ?_⟩
          rw [hm']
          decide
        · obtain ⟨hlt', hne⟩ := h.inUse m (hm.resolve_right hin)
          refine ⟨hlt', ?_⟩
          rw [hsame.entry m (by omega)]
          exact hne
      · unfold Vm.tableVirt
        rw [hsame.user b]
        exact h.aligned b i
      · rw [hsame.user b]
        exact h.agree b
    · omega

/-- The lowest free page is taken. -/
theorem FreeFrom.taken {t : Nat} (h : FreeFrom t vm) (h1 : 1 ≤ t)
    (htaken : LowestTaken 1 (kernelFree vm) (kernelFree u)) : FreeFrom (t + 1) u := by
  intro m hm hlt
  have hfree : ∀ i, t ≤ i → i < 0x100000 → kernelFree vm i = true := fun i hi hi' =>
    kernelFree_iff.2 ⟨by omega, hi', h i hi hi'⟩
  have hpos : 1 ≤ countBelow m (kernelFree vm) :=
    countBelow_pos (p := t) (by omega) (hfree t (Nat.le_refl t) (by omega))
  have hm' := htaken m
  rw [hfree m (by omega) hlt, decide_eq_true hpos, Bool.and_self] at hm'
  exact (kernelFree_iff.1 hm').2.2

theorem Room.tableRoom (h : Room U (n + 1) vm) : TableRoom vm := by
  obtain ⟨t, h1, h2, hfree⟩ := h.pages
  obtain ⟨phys, pmm, halloc, -⟩ := h.block
  exact ⟨⟨_, halloc⟩, t, h1, by omega, hfree t (Nat.le_refl t) (by omega)⟩

/-- **`get_table_alloc`** takes a block and a page at most. -/
theorem Room.table (h : Room U (n + 1) vm) (hv : v < 0x100000000) (hal : v % 1024 = 0) :
    ∃ u, getTableAlloc (.user a) vm v = .ok (⟨.user a, v / 0x400000⟩, u) ∧ u.HasTable (.user a) (v / 0x400000) ∧
      Grows (.user a) vm u ∧ Room U n u := by
  obtain ⟨u, htable, hk⟩ := getTableAlloc_room h.kernel hv hal (Or.inr h.tableRoom)
  obtain ⟨-, hgrows⟩ := getTableAlloc_spec (.user a) hv htable
  refine ⟨u, htable, (getTable_eq_some.1 (getTableAlloc_getTable hv htable)).1, hgrows, ?_⟩
  obtain ⟨-, ⟨-, rfl⟩ | ⟨hno, phys, j, hadd⟩⟩ := getTableAlloc_ok hv htable
  · exact h.le (Nat.le_succ n)
  obtain ⟨t, h1, h2, hfree⟩ := h.pages
  obtain ⟨phys', pmm, halloc, hblock⟩ := h.block
  have hpmm : u.pmm = pmm := by
    have heq := hadd.block.symm.trans halloc
    rw [Except.ok.injEq, Prod.mk.injEq] at heq
    exact heq.2
  refine ⟨hk, hpmm ▸ hblock.zero, hpmm ▸ hblock.blocks, ⟨t + 1, by omega, by omega, ?_⟩, fun m hm => ?_, fun b i => ?_,
    fun b => ?_⟩
  · exact hfree.taken h1 (tableAdded_first hno hadd htable)
  · obtain ⟨hlt, hne⟩ := h.inUse m hm
    refine ⟨hlt, ?_⟩
    rw [hgrows.keeps _ _ hne]
    exact hne
  · by_cases hb : b = a
    · rw [hb]
      exact getTableAlloc_aligned hv htable (h.aligned a) i
    · unfold Vm.tableVirt
      rw [hadd.others b hb]
      exact h.aligned b i
  · by_cases hb : b = a
    · subst hb
      have hne : BitVec.ofNat 32 phys ||| (pagePresent ||| pageReadwrite ||| pageUser) ≠ 0#32 :=
        entry_ne_zero (by decide)
      rw [hadd.dir]
      refine ⟨fun i hi => ?_, fun i hi => ?_⟩
      · by_cases hik : i = v / 0x400000
        · subst hik
          simp only [Function.update_self] at hi
          exact absurd hi hne
        · simp only [Function.update_of_ne hik] at hi ⊢
          exact (h.agree b).zero i hi
      · by_cases hik : i = v / 0x400000
        · subst hik
          simp only [Function.update_self, Option.isSome_some]
        · simp only [Function.update_of_ne hik] at hi ⊢
          exact (h.agree b).present i hi
    · rw [hadd.others b hb]
      exact h.agree b

/-- A directory more, which is empty. -/
theorem Room.addDirectory (h : Room U n vm) (phys virt d : Nat) :
    Room U n { vm with
      dirs := Function.update vm.dirs (.user d) ⟨virt, fun _ => 0#32, fun _ => none, phys, 1⟩, nextDir := d + 1 } := by
  obtain ⟨t, h1, h2, hfree⟩ := h.pages
  refine ⟨fun k hk => ?_, h.zero, h.blocks, ⟨t, h1, h2, fun m hm hm' => ?_⟩, fun m hm => ?_, fun b i => ?_, fun b => ?_⟩
  · unfold Vm.HasTable Vm.tableVirt
    simp only [Function.update_of_ne (show DirPtr.kernel ≠ .user d by simp)]
    exact h.kernel k hk
  · rw [entry_addDir]
    exact hfree m hm hm'
  · rw [entry_addDir]
    exact h.inUse m hm
  · by_cases hb : b = d
    · simp [Vm.tableVirt, hb]
    · unfold Vm.tableVirt
      simp only [Function.update_of_ne (show DirPtr.user b ≠ .user d by simpa using hb)]
      exact h.aligned b i
  · by_cases hb : b = d
    · subst hb
      simp only [Function.update_self]
      exact ⟨fun _ _ => rfl, fun i hi => absurd (BitVec.zero_and) hi⟩
    · simp only [Function.update_of_ne (show DirPtr.user b ≠ .user d by simpa using hb)]
      exact h.agree b

/-- **`page_directory_new`**. -/
theorem Room.newDirectory (h : Room U (n + 2) vm) :
    ∃ u, pageDirectoryNew vm = .ok (.user vm.nextDir, u) ∧ Room U n u := by
  obtain ⟨phys, pmm, halloc, hblock⟩ := h.block
  obtain ⟨j, u, hfind, hj1, hj, hsame, hroom⟩ := hblock.find (k := 1) (by omega)
  have hmap := mapPage_kernel hroom.kernel (show j < 0x100000 by omega) (x := phys) (f := pagePresent ||| pageReadwrite)
  have htable : getTable u (j * 4096) .kernel = some ⟨.kernel, j * 4096 / 0x400000⟩ :=
    getTable_eq_some.2 ⟨(hroom.kernel _ (by omega)).1, rfl⟩
  rw [htable] at hmap
  have hset : Room U n (u.setEntry .kernel j (BitVec.ofNat 32 phys ||| (pagePresent ||| pageReadwrite))) :=
    hroom.setKernel (Or.inr ⟨Nat.le_refl j, by omega⟩) fun k hk => ⟨Or.inl hk, fun _ => entry_ne_zero (by decide)⟩
  refine ⟨_, ?_, hset.addDirectory phys (j * 4096) vm.nextDir⟩
  have hkernel := getTableAlloc_kernel_eq hroom.kernel (show j * 4096 < 0x100000000 by omega)
  simp only [pageDirectoryNew, halloc, ok_bind, hfind, hkernel, hmap, setEntry_nextDir, hsame.nextDir]
  rfl

end Room

/-! ## The parts of `process_execve` -/

section Parts

variable {U V : Nat → Prop} {a k m n v kTmp : Nat} {vm u : Vm} {w : Word}

/-- `map_page` on a table of a user that is there. -/
theorem Room.mapUser {x : Nat} {f : Word} (h : Room U n vm) (hal : v % 1024 = 0)
    (ht : vm.HasTable (.user a) (v / 0x400000)) :
    ∃ u, mapPage vm (some ⟨.user a, v / 0x400000⟩) v x f = .ok u ∧ Room U n u := by
  have hmap := mapPage_eq (p := x) (f := f) hal ht (h.aligned a _)
  rw [getTable_eq_some.2 ⟨ht, rfl⟩] at hmap
  exact ⟨_, hmap, h.setUser (table_of_page v ▸ ht)⟩

/-- A region that is shared with the kernel. -/
theorem Room.mapSharedRegion {start stop : Word} (permissions : Word) (hal : start.toNat % 4096 = 0)
    (h : Room U (n + regionRounds start stop) vm) :
    ∃ u, processMapSharedRegion (.user a) start stop permissions vm = .ok u ∧ Room U n u := by
  unfold processMapSharedRegion
  rw [assert_bind hal]
  refine Exists.imp (fun u hu => ⟨hu.1, hu.2.le (Nat.le_add_right n _)⟩)
    (forRange_zero_ok (P := fun i w => Room U (n + (regionRounds start stop - i)) w) ?_ h)
  intro i w hi hw
  have haddr : regionAddr start i % 1024 = 0 := by
    unfold regionAddr
    omega
  have hlt : regionAddr start i < 0x100000000 := regionAddr_lt
  have hnext : n + (regionRounds start stop - (i + 1)) + 1 ≤ n + (regionRounds start stop - i) := by omega
  obtain ⟨w₁, htable, ht, -, hw₁⟩ := (hw.le hnext).table (a := a) hlt haddr
  obtain ⟨w₂, hmap, hw₂⟩ := hw₁.mapUser (x := regionAddr start i) (f := permissions) haddr ht
  exact ⟨w₂, by simp only [htable, ok_bind, hmap], hw₂⟩

/-- **`process_page_directory_new`**. -/
theorem Room.newSpace {sh : SharedRegions} (hdata : sh.startData.toNat % 4096 = 0)
    (htext : sh.startText.toNat % 4096 = 0)
    (h : Room U (n + regionRounds sh.startText sh.stopText + regionRounds sh.startData sh.stopData + 2) vm) :
    ∃ u, processPageDirectoryNew sh vm = .ok (.user vm.nextDir, u) ∧ Room U n u := by
  obtain ⟨u₁, hnew, h₁⟩ := h.newDirectory
  obtain ⟨u₂, hmap, h₂⟩ := Room.mapSharedRegion (a := vm.nextDir) pagePresent hdata h₁
  obtain ⟨u₃, hmap', h₃⟩ := Room.mapSharedRegion (a := vm.nextDir) pagePresent htext h₂
  refine ⟨u₃, ?_, h₃⟩
  simp only [processPageDirectoryNew, processPageDirectoryMapShared, hnew, ok_bind, hmap, hmap']
  rfl

/-- A page of the kernel directory that is in use is mapped. -/
theorem Room.mapKernel {x : Nat} {f : Word} (h : Room U n vm) (hm : U m) (hV : ∀ k, V k → U k)
    (hf : V m → BitVec.ofNat 32 x ||| f ≠ 0#32) :
    ∃ u, mapPage vm (getTable vm (m * 4096) .kernel) (m * 4096) x f = .ok u ∧ Room V n u ∧
      u.entry .kernel m = BitVec.ofNat 32 x ||| f := by
  obtain ⟨hlt, -⟩ := h.inUse m hm
  refine ⟨_, mapPage_kernel h.kernel hlt, h.setKernel hm fun k hk => ⟨hV k hk, fun hkm => hf (hkm ▸ hk)⟩, ?_⟩
  rw [entry_setEntry (h.kernel _ (by omega)).1, if_pos ⟨rfl, rfl⟩]

/-- The kernel fills a page that it has mapped. -/
theorem Room.fill {x : Word} (h : Room U n vm) (content : Nat → Byte) (hentry : vm.entry .kernel m = x)
    (hx : x &&& pagePresent ≠ 0#32) : ∃ u, fillPage (m * 4096) content vm = .ok u ∧ Room U n u := by
  have hframe : kernelFrame vm (m * 4096) = .ok (x.toNat / 4096) := by
    unfold kernelFrame
    simp only [Nat.mul_div_cancel m (show 0 < 4096 by omega), hentry, if_neg hx]
    rfl
  refine ⟨_, ?_, h.setFrames (Function.update vm.frames (x.toNat / 4096) content)⟩
  simp only [fillPage, hframe, ok_bind]
  rfl

/-- **One page** of a program. -/
theorem Room.execPage (h : Room U (n + 2) vm) (hk : U kTmp) (hv : v < 0x100000000) (hal : v % 1024 = 0)
    (content : Nat → Byte) : ∃ u, execPage (.user a) (kTmp * 4096) v content vm = .ok u ∧ Room U n u := by
  obtain ⟨phys, pmm, halloc, h₁⟩ := h.block
  obtain ⟨u₂, hmap, h₂, hentry⟩ := h₁.mapKernel (x := phys) (f := pagePresent ||| pageReadwrite) hk (fun _ hm => hm)
    fun _ => entry_ne_zero (by decide)
  obtain ⟨u₃, hfill, h₃⟩ := h₂.fill content hentry (present_of_or _ (by decide))
  obtain ⟨u₄, htable, ht, -, h₄⟩ := h₃.table (a := a) hv hal
  obtain ⟨u₅, hmap', h₅⟩ := h₄.mapUser (x := phys) (f := pagePresent ||| pageReadwrite ||| pageUser) hal ht
  refine ⟨u₅, ?_, h₅⟩
  simp only [Process.execPage, halloc, ok_bind, hmap, invalidatePage, assert_pos (show kTmp * 4096 % 1024 = 0 by omega),
    hfill, htable, hmap']

/-- A region of it. -/
theorem Room.execPages {start c : Nat} (h : Room U (n + 2 * c) vm) (hk : U kTmp) (hal : start % 4096 = 0)
    (content : Nat → Nat → Byte) :
    ∃ u, execPages (.user a) (kTmp * 4096) start c content vm = .ok u ∧ Room U n u := by
  refine Exists.imp (fun u hu => ⟨hu.1, hu.2.le (Nat.le_add_right n _)⟩)
    (forRange_zero_ok (P := fun i w => Room U (n + 2 * (c - i)) w) ?_ h)
  intro i w hi hw
  have hnext : n + 2 * (c - (i + 1)) + 2 ≤ n + 2 * (c - i) := by omega
  exact (hw.le hnext).execPage hk (Nat.mod_lt _ (by omega)) (by omega) _

/-- **The pages of a program.** -/
theorem Room.execvePages (textPages : Nat) (text : Nat → Nat → Byte) (h : Room U (n + 2 * textPages + 1027) vm) :
    ∃ u, processExecvePages (.user a) textPages text vm = .ok u ∧ Room (fun _ => False) n u := by
  obtain ⟨j, u₁, hfind, hj, -, -, h₁⟩ := (show Room U (n + 2 * 1 + 2 * 256 + 2 * textPages + 2 * 256 + 1) vm from
    h.le (by omega)).find (by omega)
  have hk : U j ∨ j ≤ j ∧ j < j + 1 := Or.inr ⟨Nat.le_refl j, by omega⟩
  obtain ⟨u₂, hheap, h₂⟩ := h₁.execPages (a := a) hk (show 0x2000000 % 4096 = 0 by omega) zeroPages
  obtain ⟨u₃, htext, h₃⟩ := h₂.execPages (a := a) hk (show 0x1000000 % 4096 = 0 by omega) text
  obtain ⟨u₄, hstack, h₄⟩ := h₃.execPages (a := a) hk (show 0x8000000 % 4096 = 0 by omega) zeroPages
  obtain ⟨u₅, hmisc, h₅⟩ := h₄.execPages (a := a) hk (show 0x10000000 % 4096 = 0 by omega) zeroPages
  obtain ⟨u₆, hclear, h₆, -⟩ := h₅.mapKernel (V := fun _ => False) (x := 0) (f := 0#32) hk (fun _ hm => hm.elim)
    fun hm => hm.elim
  refine ⟨u₆, ?_, h₆⟩
  simp only [processExecvePages, hfind, ok_bind, assert_pos (show j * 4096 ≠ 0 by omega), hheap, htext, hstack, hmisc,
    hclear]

/-- A guard page. -/
theorem Room.guard (h : Room U n vm) (hm : U m) : ∃ u, mapGuard (m * 4096) vm = .ok u ∧ Room U n u := by
  obtain ⟨u, hmap, hu, -⟩ := h.mapKernel (x := pageValueGuard.toNat) (f := 0#32) hm (fun _ hk => hk) fun _ => by decide
  refine ⟨u, ?_, hu⟩
  simp only [mapGuard, hmap, ok_bind, invalidatePage, assert_pos (show m * 4096 % 1024 = 0 by omega)]
  rfl

/-- A page of a kernel stack. -/
theorem Room.stackPage (h : Room U (n + 1) vm) (hm : U m) : ∃ u, kstackPage (m * 4096) vm = .ok u ∧ Room U n u := by
  obtain ⟨phys, pmm, halloc, h₁⟩ := h.block
  obtain ⟨u₂, hmap, h₂, hentry⟩ := h₁.mapKernel (x := phys) (f := pagePresent ||| pageReadwrite) hm (fun _ hk => hk)
    fun _ => entry_ne_zero (by decide)
  obtain ⟨u₃, hfill, h₃⟩ := h₂.fill (fun _ => 0#8) hentry (present_of_or _ (by decide))
  refine ⟨u₃, ?_, h₃⟩
  simp only [kstackPage, halloc, ok_bind, hmap, invalidatePage, assert_pos (show m * 4096 % 1024 = 0 by omega), hfill]

/-- **`task_kstack_alloc`**. -/
theorem Room.kstackAlloc (h : Room U (n + 14) vm) :
    ∃ kstack u, taskKstackAlloc vm = .ok (kstack, u) ∧ kstackSize * 4096 ≤ kstack.toNat ∧ Room U n u := by
  obtain ⟨j, u₁, hfind, hj1, hj, -, h₁⟩ := (show Room U (n + 6 + kstackSize) vm from h).find (by decide)
  have hin : ∀ i < kstackSize, U (j + i) ∨ j ≤ j + i ∧ j + i < j + kstackSize := fun i hi => Or.inr ⟨by omega, by omega⟩
  unfold kstackSize at hj
  obtain ⟨u₂, hguard, h₂⟩ := h₁.guard (hin 0 (by decide))
  have hloop : ∃ u₃, forRange (fun i vm => kstackPage (((j * 4096 + 4096) % 0x100000000 + i * 4096) % 0x100000000) vm)
      0 (kstackSize - 2) u₂ = .ok u₃ ∧
      Room (fun m => U m ∨ j ≤ m ∧ m < j + kstackSize) (n + (6 - (kstackSize - 2))) u₃ := by
    refine forRange_zero_ok (P := fun i w => Room (fun m => U m ∨ j ≤ m ∧ m < j + kstackSize) (n + (6 - i)) w) ?_ h₂
    intro i w hi hw
    have hi' : i < 6 := hi
    have haddr : ((j * 4096 + 4096) % 0x100000000 + i * 4096) % 0x100000000 = (j + (i + 1)) * 4096 := by omega
    rw [haddr]
    exact (hw.le (k := n + (6 - (i + 1)) + 1) (by omega)).stackPage
      (hin (i + 1) (by unfold kstackSize; omega))
  obtain ⟨u₃, hu₃, h₃⟩ := hloop
  obtain ⟨u₄, hguard', h₄⟩ := h₃.guard (hin 7 (by decide))
  have hlast : ((j * 4096 + 4096) % 0x100000000 + (kstackSize - 2) * 4096) % 0x100000000 = (j + 7) * 4096 := by
    unfold kstackSize
    omega
  refine ⟨BitVec.ofNat 32 ((j + 7) * 4096), u₄, ?_, ?_, h₄.mono (Nat.le_add_right n _) fun _ hm => Or.inl hm⟩
  · simp only [taskKstackAlloc, hfind, ok_bind, assert_pos (show j * 4096 ≠ 0 by omega), Nat.add_zero] at hguard ⊢
    simp only [hguard, ok_bind, hu₃, hlast, hguard']
    rfl
  · rw [BitVec.toNat_ofNat]
    unfold kstackSize
    omega

theorem kstackAddr_aligned {kstack : Word} (hal : kstack.toNat % 4096 = 0) (i : Nat) :
    kstackAddr kstack i % 1024 = 0 := by
  unfold kstackAddr
  rw [BitVec.toNat_sub, BitVec.toNat_ofNat]
  omega

/-- A round of `process_map_kstack` that has returned. -/
theorem Room.mapKstackPage (h : Room U (n + 1) vm) (hv : v < 0x100000000) (hal : v % 1024 = 0)
    (hrun : mapKstackPage (.user a) v vm = .ok u) : Room U n u := by
  simp only [Process.mapKstackPage, bind_eq_ok, pure_eq_ok, Prod.exists] at hrun
  obtain ⟨page, -, -, -, t, u₁, htable, -, -, -, -, t', u₂, htable', rfl⟩ := hrun
  obtain ⟨w, htable₀, ht, -, hw⟩ := h.table (a := a) hv hal
  rw [htable₀, Except.ok.injEq, Prod.mk.injEq] at htable
  obtain ⟨rfl, rfl⟩ := htable
  rw [getTableAlloc_there ht, Except.ok.injEq, Prod.mk.injEq] at htable'
  obtain ⟨rfl, rfl⟩ := htable'
  have hset := hw.setUser (w := page) (table_of_page v ▸ ht)
  unfold Vm.setEntry at hset
  rwa [table_of_page] at hset

/-- The tables of a kernel stack find room. -/
theorem Room.kstackRoom {kstack : Word} (hal : kstack.toNat % 4096 = 0) {c i : Nat} (h : Room U (n + c) vm) :
    ForMeets (fun i vm => Process.mapKstackPage (.user a) (kstackAddr kstack i) vm)
      (fun i w => w.HasTable (.user a) (kstackAddr kstack i / 0x400000) ∨ TableRoom w) i c vm := by
  induction c generalizing i vm with
  | zero => trivial
  | succ c ih =>
    exact ⟨Or.inr h.tableRoom, fun u hu => ih (h.mapKstackPage kstackAddr_lt (kstackAddr_aligned hal i) hu)⟩

/-- **A kernel stack** for a process whose directory has no page that is free in the kernel's. -/
theorem Room.kstack (h : Room U (n + 22) vm) (hfree : ∀ m, vm.entry .kernel m = 0#32 → vm.entry (.user a) m = 0#32) :
    ∃ kstack u u', taskKstackAlloc vm = .ok (kstack, u) ∧ processMapKstack (.user a) kstack u = .ok u' ∧
      Room U n u' := by
  obtain ⟨kstack, u, halloc, htop, hu⟩ := (show Room U (n + 8 + 14) vm from h).kstackAlloc
  obtain ⟨j, blocks, h1, hbelow, rfl, hzero, hlen, hstack, hguard⟩ := taskKstackAlloc_stacked h.kernel halloc htop
  have hentries := (hstack.laid h1 hbelow hlen hguard).entries hbelow
  have huser : ∀ m, u.entry (.user a) m = vm.entry (.user a) m := entry_of_dirs (hstack.but.users a)
  have hal : (BitVec.ofNat 32 ((j + 7) * 4096)).toNat % 4096 = 0 := by
    rw [BitVec.toNat_ofNat]
    omega
  have hseen : KstackSeen (u.entry .kernel) (u.entry (.user a)) j a (fun _ => False) u :=
    ⟨hu.kernel, fun _ _ => rfl, hu.aligned a, fun m => by rw [if_neg not_false]⟩
  obtain ⟨u', hmap, -⟩ := hseen.mapped hentries hbelow (fun m hm => (huser m).trans (hfree m (hzero m hm)))
    (Room.kstackRoom hal (n := n) (c := kstackSize) hu)
  refine ⟨_, u, u', halloc, hmap, ?_⟩
  simp only [processMapKstack, bind_eq_ok] at hmap
  obtain ⟨-, -, hloop⟩ := hmap
  have hinv := forRange_inv (P := fun i w => Room U (n + (8 - i)) w) (fun i w w' _ hi hw hstep => ?_) hloop hu
  · exact hinv
  · have hi' : i < 8 := by unfold kstackSize at hi; omega
    exact (hw.le (k := n + (8 - (i + 1)) + 1) (by omega)).mapKstackPage kstackAddr_lt
      (kstackAddr_aligned hal i) hstep

end Parts

/-! ## The copies -/

/-- The element behind the last one is `NULL`. -/
def Terminated (array : StrVector) (n : Word) : Prop :=
  match array with
  | none => n = 0#32
  | some elems => elems n.toNat = none

section Copies

variable {U : Nat → Prop} {a i n : Nat} {vm u : Vm} {ptr len region argc envc : Word} {buffer : Nat → Byte}
  {done : List (Word × CString)} {x : ArrayCopy} {elems : Nat → Option CString} {arr : StrVector} {strs : List CString}
  {v : CString} {argvPtrs envpPtrs : Nat → Word}

theorem Room.restored (h : Room U n vm) (hr : Restored vm u) : Room U n u := by
  obtain ⟨t, h1, h2, hfree⟩ := h.pages
  have hentry : ∀ m, u.entry .kernel m = vm.entry .kernel m := fun m => hr.entry m (Or.inr (by omega))
  refine ⟨hr.kernelTables h.kernel, ?_, ?_, ⟨t, h1, h2, fun m hm hm' => ?_⟩, fun m hm => ?_, fun b k => ?_, fun b => ?_⟩
  · rw [hr.pmm]
    exact h.zero
  · rw [hr.pmm]
    exact h.blocks
  · rw [hentry]
    exact hfree m hm hm'
  · rw [hentry]
    exact h.inUse m hm
  · unfold Vm.tableVirt
    rw [hr.user b]
    exact h.aligned b k
  · rw [hr.user b]
    exact h.agree b

/-- **`copy_to_userspace`** needs pages for the range, and gives them back. -/
theorem Room.copy (h : Room U n vm) (buffer : Nat → Byte) (hn : nBlocks ptr len ≤ n) (hpos : len ≠ 0#32)
    (hfits : ptr.toNat + len.toNat < 0x80000000) (huser : UserRange vm (.user a) ptr.toNat len.toNat) :
    ∃ u, copyToUserspace vm (.user a) ptr len buffer = .ok (len, u) ∧ Room U n u := by
  obtain ⟨t, h1, h2, hfree⟩ := h.pages
  have hoff := offset_toNat ptr
  have hcall : CopyCall vm (.user a) ptr len :=
    ⟨h.kernel, h.agree a, fun hk => absurd hk (by simp), hpos, by omega, by omega, t, h1, by omega,
      fun k hk => hfree _ (by omega) (by omega)⟩
  obtain ⟨u, hrun, hr, -⟩ := copyToUserspace_ok hcall huser buffer
  exact ⟨u, hrun, h.restored hr⟩

/-- **One string**, which fits. -/
theorem Room.copyString (h : Room U 6 x.vm) (hown : OwnPages a ImagePage x.vm) (hge : 0x10000000 ≤ x.region.toNat)
    (hv : elems i = some v) (hend : x.region.toNat + (strlen v + 1) < 0x10001000) :
    ∃ x', execCopyString (.user a) (0x10000000#32 + 0x1000#32) elems i x = .ok x' ∧ Room U 6 x'.vm ∧
      x'.region.toNat = x.region.toNat + (strlen v + 1) := by
  obtain ⟨hsize, hregion⟩ := string_end (show x.region.toNat + (strlen v + 1) < 0x100000000 by omega)
  have hfits : ¬ x.region + BitVec.ofNat 32 (strlen v + 1) ≥ 0x10000000#32 + 0x1000#32 := by
    apply BitVec.not_le.2
    rw [BitVec.lt_def, hregion]
    exact hend
  have hblocks : nBlocks x.region (BitVec.ofNat 32 (strlen v + 1)) ≤ 6 := by
    rw [nBlocks_eq, hsize, offset_toNat]
    omega
  have hpos : BitVec.ofNat 32 (strlen v + 1) ≠ 0#32 := by
    intro hc
    rw [hc] at hsize
    exact absurd hsize (by simp)
  have huser : UserRange x.vm (.user a) x.region.toNat (BitVec.ofNat 32 (strlen v + 1)).toNat := by
    rw [hsize]
    exact fun m h1 h2 => hown.user m (Or.inr (by omega))
  obtain ⟨u, hcopy, hu⟩ := h.copy (fun k => v.mem.getD k 0) hblocks hpos (by rw [hsize]; omega) huser
  have hr : 0 ≤ (BitVec.ofNat 32 (strlen v + 1)).toInt := by
    rw [BitVec.toInt_eq_toNat_of_lt (by rw [hsize]; omega)]
    omega
  refine ⟨⟨u, x.region + BitVec.ofNat 32 (strlen v + 1), Function.update x.ptrs i x.region⟩, ?_, hu, hregion⟩
  simp only [execCopyString, hv, assert_pos hfits, ok_bind, hcopy, assert_pos hr]
  rfl

theorem stringsSize_take_succ (hi : i < strs.length) :
    stringsSize (strs.take (i + 1)) = stringsSize (strs.take i) + (strlen strs[i] + 1) := by
  rw [← List.take_append_getElem hi, stringsSize_append]
  rfl

theorem stringsSize_take_le (strs : List CString) (i : Nat) : stringsSize (strs.take i) ≤ stringsSize strs := by
  have happend := stringsSize_append (strs.take i) (strs.drop i)
  rw [List.take_append_drop] at happend
  omega

/-- **An array of strings**, which fit. -/
theorem Room.copyArray {c : Word} (h : Room U 6 vm) (hc : StringsCopied a done vm region) (hs : HasStrings arr c strs)
    (hterm : Terminated arr c) (hend : region.toNat + stringsSize strs < 0x10001000) :
    ∃ x, processExecCopyArray (.user a) region (0x10000000#32 + 0x1000#32) arr c vm = .ok x ∧ Room U 6 x.vm ∧
      x.region.toNat = region.toNat + stringsSize strs := by
  unfold processExecCopyArray
  cases arr with
  | none =>
    have hzero : strs = [] := by
      rw [← List.length_eq_zero_iff]
      by_contra hne
      obtain ⟨elems, hsome, -⟩ := hs.elem 0 (by omega)
      cases hsome
    rw [hzero]
    exact ⟨⟨vm, region, fun _ => 0#32⟩, by simp only [assert_pos (show c = 0#32 from hterm)]; rfl, h, rfl⟩
  | some elems =>
    have hge := hc.ge
    have hend' : elems strs.length = none := by
      rw [hs.length]
      exact hterm
    simp only [← hs.length, assert_pos hend', ok_bind]
    refine Exists.imp (fun x hx => ⟨hx.1, hx.2.1, ?_⟩) (forRange_zero_ok (P := fun i x => Room U 6 x.vm ∧
      x.region.toNat = region.toNat + stringsSize (strs.take i) ∧ ∃ done, StringsCopied a done x.vm x.region) ?_
      ⟨h, rfl, done, hc⟩)
    · rw [hx.2.2.1, List.take_length]
    · rintro i x hi ⟨hx, hregion, done', hc'⟩
      obtain ⟨elems', hsome, helem⟩ := hs.elem i hi
      cases hsome
      have hsucc := stringsSize_take_succ hi
      have hle := stringsSize_take_le strs (i + 1)
      obtain ⟨x', hstep, hx', hregion'⟩ := hx.copyString hc'.own (by omega) helem (by omega)
      refine ⟨x', hstep, hx', by omega, _, (hc'.string helem (by omega) hstep).1⟩

/-- **The stack image.** -/
theorem Room.pushStack (h : Room U 6 vm) (hown : OwnPages a ImagePage vm) (hcount : argc.toNat + envc.toNat < 4096)
    (argvPtrs envpPtrs : Nat → Word) :
    ∃ r, pushUserStack (.user a) argc argvPtrs envc envpPtrs vm = .ok r := by
  have hsize : ((argc + 2#32 + envc + 1#32) * 4#32).toNat = (argc.toNat + envc.toNat + 3) * 4 := by
    simp only [BitVec.toNat_mul, BitVec.toNat_add, BitVec.toNat_ofNat]
    omega
  have hwords : (userStackWords argc argvPtrs envc envpPtrs).length = (argc + 2#32 + envc + 1#32).toNat := by
    rw [length_userStackWords]
    simp only [BitVec.toNat_add, BitVec.toNat_ofNat]
    omega
  have htop : (0x2000000#32 + 0x100000#32 - (argc + 2#32 + envc + 1#32) * 4#32).toNat +
      (argc.toNat + envc.toNat + 3) * 4 = 0x2000000 + 256 * 4096 := by
    rw [BitVec.toNat_sub, hsize, BitVec.toNat_add]
    simp only [BitVec.toNat_ofNat]
    omega
  have hblocks : nBlocks (0x2000000#32 + 0x100000#32 - (argc + 2#32 + envc + 1#32) * 4#32)
      ((argc + 2#32 + envc + 1#32) * 4#32) ≤ 6 := by
    rw [nBlocks_eq, hsize, offset_toNat]
    omega
  have hpos : (argc + 2#32 + envc + 1#32) * 4#32 ≠ 0#32 := by
    intro hc
    rw [hc] at hsize
    simp only [BitVec.toNat_ofNat] at hsize
    omega
  obtain ⟨u, hcopy, -⟩ := h.copy (a := a) (wordsByte (userStackWords argc argvPtrs envc envpPtrs)) hblocks hpos
    (by rw [hsize]; omega) (by rw [hsize]; exact fun m h1 h2 => hown.user m (Or.inl (by omega)))
  have hr : 0 < ((argc + 2#32 + envc + 1#32) * 4#32).toInt := by
    rw [BitVec.toInt_eq_toNat_of_lt (by rw [hsize]; omega), hsize]
    omega
  refine ⟨(0x2000000#32 + 0x100000#32 - (argc + 2#32 + envc + 1#32) * 4#32, u), ?_⟩
  simp only [pushUserStack, assert_pos hwords, ok_bind, hcopy, assert_pos hr]
  rfl

end Copies

/-! ## The call -/

section Call

variable {sh : SharedRegions} {returnToRegs : Word} {task : ExecTask} {f : ExecFile} {argc envc : Word}
  {argv envp : StrVector} {args envs : List CString} {vm : Vm}

/-- **`process_execve` returns** for a task without an address space and a kernel stack, where there is room, if the
file can be read and the strings fit into a page. -/
theorem process_execve_returns (hdata : sh.startData.toNat % 4096 = 0) (htext : sh.startText.toNat % 4096 = 0)
    (hroom : Room (SharedPage sh) (2 * f.pages + 1055 + regionRounds sh.startText sh.stopText +
      regionRounds sh.startData sh.stopData + 2) vm)
    (hpdir : task.pdir = none) (hkstack : task.kstack = 0#32) (hlen : f.length ≠ 0#32)
    (hread : ∀ i, i < f.pages → (f.read i).1 ≠ 0xFFFFFFFF#32) (hargs : HasStrings argv argc args)
    (hargv : Terminated argv argc) (henvs : HasStrings envp envc envs) (henvp : Terminated envp envc)
    (hsize : stringsSize (args ++ envs) < 4096) :
    ∃ r, processExecve sh returnToRegs task f argc argv envc envp vm = .ok r := by
  obtain ⟨u₁, hnew, h₁⟩ := hroom.newSpace hdata htext
  obtain ⟨-, hpages⟩ := processPageDirectoryNew_pages hnew
  obtain ⟨kstack, u₂, u₃, halloc, hmap, h₃⟩ := (show Room (SharedPage sh) (6 + 2 * f.pages + 1027 + 22) u₁ from
    h₁.le (by omega)).kstack (a := vm.nextDir) fun m hm => by
      by_contra hne
      exact (h₁.inUse m (hpages m hne)).2 hm
  obtain ⟨u₄, hexec, h₄⟩ := Room.execvePages (a := vm.nextDir) f.pages (fun i => (f.read i).2) h₃
  have hsum := stringsSize_append args envs
  have hcopied := (processExecvePages_own hexec).copied
  have hfit : ∀ v ∈ args ++ envs, strlen v + 1 < 4096 := fun v hv => Nat.lt_of_le_of_lt (strlen_le_stringsSize hv) hsize
  obtain ⟨x, hx, h₅, hregion⟩ := h₄.copyArray hcopied hargs hargv (by simp only [BitVec.toNat_ofNat]; omega)
  have hcopied' := hcopied.array hargs (fun v hv => hfit v (List.mem_append_left envs hv)) hx
  obtain ⟨y, hy, h₆, -⟩ := h₅.copyArray hcopied' henvs henvp (by rw [hregion]; simp only [BitVec.toNat_ofNat]; omega)
  have hown := (hcopied'.array henvs (fun v hv => hfit v (List.mem_append_right args hv)) hy).own
  have hcount := length_le_stringsSize (args ++ envs)
  rw [List.length_append, hargs.length, henvs.length] at hcount
  obtain ⟨⟨esp, u₇⟩, hpush⟩ := h₆.pushStack hown (show argc.toNat + envc.toNat < 4096 by omega) x.ptrs y.ptrs
  apply exists_ok
  simp only [processExecve, assert_pos hlen, ok_bind, leaveSpace, hpdir, pure_bind, hnew, ensureKstack, hkstack,
    if_true, halloc, hmap, assert_pos hread, hexec, hx, hy, hpush]
  rfl

/-- **Arguments.** If `process_execve` returns, the program finds at its `esp` the number of its arguments, pointers to
them and a 0, pointers to the strings of its environment and a 0, up to the end of the heap. The pointers lead into the
misc page, to these strings, and no two of the strings overlap. -/
theorem process_execve_image (sh : SharedRegions) (returnToRegs : Word) (task task' : ExecTask) (f : ExecFile)
    (argc : Word) (argv : StrVector) (envc : Word) (envp : StrVector) (args envs : List CString) (vm vm' : Vm)
    (hargs : HasStrings argv argc args) (henvs : HasStrings envp envc envs)
    (hsize : stringsSize (args ++ envs) < 4096)
    (hrun : processExecve sh returnToRegs task f argc argv envc envp vm = .ok (task', vm')) :
    ∃ pdir, task'.pdir = some pdir ∧ ArgumentImage vm' pdir task'.frame.esp args envs := by
  simp only [processExecve, bind_eq_ok, pure_eq_ok, Prod.exists, Prod.mk.injEq] at hrun
  obtain ⟨-, -, vm₁, -, pdir, vm₂, hnew, task₁, vm₃, hkstack, vm₄, -, -, -, vm₅, hpages, x, hx, y, hy, esp, vm₆, hpush,
    rfl, rfl⟩ := hrun
  obtain ⟨a, rfl⟩ := processPageDirectoryNew_user hnew
  have hlen : ∀ v ∈ args ++ envs, strlen v + 1 < 4096 := fun v hv => Nat.lt_of_le_of_lt (strlen_le_stringsSize hv) hsize
  have hcount : args.length + envs.length < 4096 := by
    rw [← List.length_append]
    exact Nat.lt_of_le_of_lt (length_le_stringsSize _) hsize
  have hown := processExecvePages_own hpages
  have hcargs := hown.copied.array hargs (fun v hv => hlen v (List.mem_append_left envs hv)) hx
  have hc := hcargs.array henvs (fun v hv => hlen v (List.mem_append_right args hv)) hy
  rw [List.nil_append] at hc
  exact ⟨.user a, ensureKstack_pdir hkstack, hc.image hargs.length henvs.length hcount hpush⟩

end Call

/-! ### A program with one argument -/

theorem roomyVm_size : (2048 : Nat) ≤ 1048575 := by decide

/-- A machine with 2048 blocks, of which the first is in use. The kernel directory has one page. -/
def roomyVm : Vm where
  pmm := ⟨fun i => if i = 0 then 1#32 else 0#32, 2048, roomyVm_size⟩
  dirs _ := ⟨0, fun _ => 1#32, fun k => some ⟨0, fun i => if k * 1024 + i = 1 then 0x1003#32 else 0#32⟩, 0, -1⟩
  nextDir := 0
  frames _ _ := 0#8

theorem roomyVm_kernel (m : Nat) : roomyVm.entry .kernel m = if m = 1 then 0x1003#32 else 0#32 := by
  show (if m / 1024 * 1024 + m % 1024 = 1 then 0x1003#32 else 0#32) = _
  rw [Nat.mul_comm, Nat.div_add_mod]

theorem roomyVm_free : 2047 ≤ freeBlocks roomyVm.pmm := by
  apply countBelow_positive (n := 2047)
  intro q hq _
  unfold BlockMap.used roomyVm
  by_cases hzero : q / 32 = 0
  · have hbit : (1#32 : Word).getLsbD (q % 32) = false := by
      rw [show (1#32 : Word) = BitVec.twoPow 32 0 from rfl, BitVec.getLsbD_twoPow]
      simp only [Bool.and_eq_false_iff, decide_eq_false_iff_not]
      omega
    simp only [hzero, if_true, hbit, Bool.not_false]
  · simp only [hzero, if_false, BitVec.getLsbD_zero, Bool.not_false]

theorem roomyVm_room : Room (SharedPage onePage) 1060 roomyVm := by
  have hne : (1#32 : Word) ≠ 0#32 := by decide
  refine ⟨fun k _ => ⟨⟨_, rfl⟩, rfl⟩, rfl, Nat.le_trans (by omega) roomyVm_free,
    ⟨2, by omega, by omega, fun m hm _ => ?_⟩, fun m hm => ?_, fun a k => rfl,
    fun a => ⟨fun i hi => absurd hi hne, fun _ _ => rfl⟩⟩
  · rw [roomyVm_kernel, if_neg (by omega)]
  · rw [onePage_shared hm, roomyVm_kernel]
    decide

/-- A task that has not run yet. -/
def newTask : ExecTask := ⟨false, none, 0#32, zeroRegisters, 0#32, 0#32, 0#32, 0#32⟩

/-- A program of one byte. -/
def smallFile : ExecFile := ⟨1#32, fun _ => (1#32, fun _ => 0xC3#8)⟩

/-- The array of these strings. -/
def vectorOf (strs : List CString) : StrVector := some fun i => strs[i]?

theorem hasStrings_vectorOf (strs : List CString) (h : strs.length < 0x100000000) :
    HasStrings (vectorOf strs) (BitVec.ofNat 32 strs.length) strs := by
  refine ⟨?_, fun i hi => ⟨_, rfl, List.getElem?_eq_getElem hi⟩⟩
  rw [BitVec.toNat_ofNat, Nat.mod_eq_of_lt h]

theorem terminated_vectorOf {strs : List CString} (h : strs.length < 0x100000000) :
    Terminated (vectorOf strs) (BitVec.ofNat 32 strs.length) := by
  show strs[(BitVec.ofNat 32 strs.length).toNat]? = none
  rw [BitVec.toNat_ofNat, Nat.mod_eq_of_lt h]
  exact List.getElem?_eq_none (Nat.le_refl _)

theorem initName_nonzero : (0 : Byte) ∉ [(0x69 : Byte)] := by decide

def initName : CString := ⟨[0x69], initName_nonzero⟩

/-- The program finds its name, and an environment of one empty string. -/
theorem process_execve_image_init : ∃ task' vm',
    processExecve onePage 0#32 newTask smallFile 1#32 (vectorOf [initName]) 1#32 (vectorOf [CString.empty]) roomyVm =
      .ok (task', vm') ∧
    ∃ pdir, task'.pdir = some pdir ∧ ArgumentImage vm' pdir task'.frame.esp [initName] [CString.empty] := by
  have hargs := hasStrings_vectorOf [initName] (by decide)
  have henvs := hasStrings_vectorOf [CString.empty] (by decide)
  have hsize : stringsSize ([initName] ++ [CString.empty]) < 4096 := by decide
  have hread : ∀ i, i < smallFile.pages → (smallFile.read i).1 ≠ 0xFFFFFFFF#32 := by
    intro i _
    show (1#32 : Word) ≠ 0xFFFFFFFF#32
    decide
  have hreturns : ∃ r, processExecve onePage 0#32 newTask smallFile 1#32 (vectorOf [initName]) 1#32
      (vectorOf [CString.empty]) roomyVm = .ok r :=
    process_execve_returns (by decide) (by decide) roomyVm_room rfl rfl (by decide) hread hargs
      (terminated_vectorOf (by decide)) henvs (terminated_vectorOf (by decide)) hsize
  obtain ⟨⟨task', vm'⟩, hrun⟩ := hreturns
  exact ⟨task', vm', hrun, process_execve_image onePage 0#32 newTask task' smallFile 1#32 (vectorOf [initName]) 1#32
    (vectorOf [CString.empty]) [initName] [CString.empty] roomyVm vm' hargs henvs hsize hrun⟩

end Myunix.Process
