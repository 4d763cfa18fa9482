import Myunix.Pmm.FindRegion
import Myunix.Process.KstackRuns
import Myunix.Syscall.Copy
import Myunix.Vmm.Dma
import Myunix.Vmm.MapPages

/-!
# Anonymous memory (`syscall_mmap_anon`)

`syscall_mmap_anon(0, len, prot)` is there to map every page of `[a, a + len)`, for an address `a` that it chooses, to a
new frame of zeroes, and to change nothing else (`Mmapped`). It rounds `len` down to whole pages, chooses the pages with
`find_vspace`, which reserves them, and takes a frame for each, which it clears through a scratch page of the kernel
directory.

* `LooksUp` is what the search does to the machine: nothing, or it takes a page of the kernel directory for a table.
* `findVspace_there` is the search where it needs no table, `mmapPage_cases` one round of the loop and `Rounds` the
  state after some of them.
* `syscall_mmap_anon_maps` is the exact condition under which the call does its work.
-/

namespace Myunix.Syscall

open Lib Pmm Vmm Process

/-! ## What the call is for -/

/-- The entry of a present user page, which is writable when `prot` is 3. -/
structure MmapEntry (edx e : Word) : Prop where
  present : e &&& pagePresent ≠ 0#32
  user : e &&& pageUser ≠ 0#32
  writable : e &&& pageReadwrite ≠ 0#32 ↔ edx = 3#32

/-- The kernel directory of `vm'` is that of `vm`. -/
structure SameKernel (vm vm' : Vm) : Prop where
  entry : ∀ m, vm'.entry .kernel m = vm.entry .kernel m
  tables : ∀ k, vm'.HasTable .kernel k ↔ vm.HasTable .kernel k
  virt : ∀ k, vm'.tableVirt ⟨.kernel, k⟩ = vm.tableVirt ⟨.kernel, k⟩
  physical : (vm'.dirs .kernel).physicalTables = (vm.dirs .kernel).physicalTables

/-- The pages of the `len` bytes at `r` were unmapped in directory `a`, and are now user pages with frames of their own,
which were free and are filled with zeroes. Nothing else has changed. -/
structure Mmapped (vm : Vm) (a : Nat) (len edx r : Word) (vm' : Vm) : Prop where
  aligned : r.toNat % 4096 = 0
  was_free : ∀ m, Overlaps r.toNat (r.toNat + len.toNat) m → vm.entry (.user a) m = 0#32
  mapped : ∀ m, Overlaps r.toNat (r.toNat + len.toNat) m → MmapEntry edx (vm'.entry (.user a) m)
  frame : ∀ m, Overlaps r.toNat (r.toNat + len.toNat) m → frameOf (vm'.entry (.user a) m) < vm.pmm.size ∧
    vm.pmm.used (frameOf (vm'.entry (.user a) m)) = false ∧ vm'.pmm.used (frameOf (vm'.entry (.user a) m)) = true
  zero : ∀ m, Overlaps r.toNat (r.toNat + len.toNat) m → ∀ o, vm'.frames (frameOf (vm'.entry (.user a) m)) o = 0#8
  distinct : ∀ m m', Overlaps r.toNat (r.toNat + len.toNat) m → Overlaps r.toNat (r.toNat + len.toNat) m' →
    frameOf (vm'.entry (.user a) m) = frameOf (vm'.entry (.user a) m') → m = m'
  others : ∀ m, ¬ Overlaps r.toNat (r.toNat + len.toNat) m → vm'.entry (.user a) m = vm.entry (.user a) m
  users : ∀ b, b ≠ a → vm'.dirs (.user b) = vm.dirs (.user b)
  memory : ∀ f, (∀ m, Overlaps r.toNat (r.toNat + len.toNat) m → frameOf (vm'.entry (.user a) m) ≠ f) →
    vm'.frames f = vm.frames f
  kernel : SameKernel vm vm'

/-- Pages `j` to `j + n` are the first `n` unmapped pages in a row; they end below the last page, and their tables are
there. -/
structure FirstRun (vm : Vm) (a n j : Nat) : Prop where
  start : 1 ≤ j
  stop : j + n < 0x100000
  free : ∀ k < n, vm.entry (.user a) (j + k) = 0#32
  first : ∀ i, 1 ≤ i → i < j → ∃ k < n, vm.entry (.user a) (i + k) ≠ 0#32
  tables : ∀ k < n, vm.HasTable (.user a) ((j + k) / 1024)

/-- The length is a number of pages, there is room for them, a page of the kernel directory is free and there are frames
for them. -/
structure MmapFits (vm : Vm) (a : Nat) (len : Word) : Prop where
  pages : len.toNat % 4096 = 0
  run : ∃ j, FirstRun vm a (len.toNat / 4096) j
  scratch : ∃ q, 1 ≤ q ∧ q < 0x100000 ∧ vm.entry .kernel q = 0#32
  blocks : len.toNat / 4096 ≤ freeBlocks vm.pmm

/-! ## The search -/

section Search

variable {vm vm' : Vm} {a i j n v : Nat}

/-- What looking up tables of directory `a` does: nothing, or it takes pages of the kernel directory for new ones. -/
structure LooksUp (a : Nat) (vm vm' : Vm) : Prop where
  grows : Grows (.user a) vm vm'
  takes : vm' = vm ∨ ∃ q, vm.entry .kernel q = 0#32 ∧ vm'.entry .kernel q ≠ 0#32

theorem quiet_looksUp (a : Nat) : Quiet (.user a) (LooksUp a) where
  refl vm := ⟨(quiet_grows _).refl vm, Or.inl rfl⟩
  trans h h' := by
    refine ⟨(quiet_grows _).trans h.grows h'.grows, ?_⟩
    rcases h.takes with rfl | ⟨q, hq, hq'⟩
    · exact h'.takes
    · exact Or.inr ⟨q, hq, by rw [h'.grows.keeps _ q hq']; exact hq'⟩
  same h := h.grows.same

theorem looksUp_spec (a : Nat) : TableSpec (.user a) (LooksUp a) (getTableAlloc (.user a)) := by
  intro vm v t vm' hv h
  obtain ⟨ht, hgrows⟩ := getTableAlloc_spec (.user a) hv h
  refine ⟨ht, hgrows, ?_⟩
  obtain ⟨-, ⟨-, rfl⟩ | ⟨-, phys, q, hadd⟩⟩ := getTableAlloc_ok hv h
  · exact Or.inl rfl
  · refine Or.inr ⟨q, hadd.page_free, ?_⟩
    rw [hadd.kernel, if_pos rfl]
    exact entry_ne_zero (by decide)

/-- A search of directory `a` that returns. -/
theorem findVspace_looksUp (h : findVspace (.user a) n vm = .ok (v, vm')) :
    n ≠ 0 ∧ FirstFit (LooksUp a) (.user a) n 1 vm v vm' := by
  simp only [findVspace, findVspaceWith, bind_eq_ok, assert_eq_ok] at h
  obtain ⟨-, hn, h⟩ := h
  exact ⟨hn, vspaceFrom_spec (quiet_looksUp a) (looksUp_spec a) hn (by omega) h⟩

theorem getTableAlloc_there (ht : vm.HasTable (.user a) (v / 0x400000)) :
    getTableAlloc (.user a) vm v = .ok (⟨.user a, v / 0x400000⟩, vm) := by
  have hsome : getTable vm v (.user a) = some ⟨.user a, v / 0x400000⟩ := getTable_eq_some.2 ⟨ht, rfl⟩
  simp only [getTableAlloc, hsome]
  rfl

theorem vspaceLength_there {g l : Nat} (htop : i + (l + g) ≤ 0x100000)
    (ht : ∀ m, i ≤ m → m < i + (l + g) → vm.HasTable (.user a) (m / 1024)) :
    ∃ r, vspaceLength (getTableAlloc (.user a)) (i * 4096) g l vm = .ok (r, vm) := by
  induction g generalizing l with
  | zero => exact ⟨l, rfl⟩
  | succ g ih =>
    have haddr : (i * 4096 + l * 4096) % 0x100000000 = (i + l) * 4096 := by omega
    have htable : vm.HasTable (.user a) ((i + l) * 4096 / 0x400000) := by
      rw [show (i + l) * 4096 / 0x400000 = (i + l) / 1024 by omega]
      exact ht _ (by omega) (by omega)
    simp only [vspaceLength, haddr, getTableAlloc_there htable, ok_bind, getPage_table]
    split
    · exact ih (l := l + 1) (by omega) fun m h1 h2 => ht m h1 (by omega)
    · exact ⟨l, rfl⟩

/-- The search from page `i` on finds the first run, where all tables up to its end are there. -/
theorem vspaceFrom_there {g : Nat} (hn : n ≠ 0) (hij : i ≤ j) (hr : j < i + g) (hstop : j + n < 0x100000)
    (hfree : FreeRun vm (.user a) j n) (hfirst : ∀ i', i ≤ i' → i' < j → ¬ FreeRun vm (.user a) i' n)
    (ht : ∀ m, i ≤ m → m < j + n → vm.HasTable (.user a) (m / 1024)) :
    vspaceFrom (getTableAlloc (.user a)) (.user a) n g i vm =
      reserveVspace (.user a) (j * 4096) ((j * 4096 + n * 4096) % 0x100000000) vm >>=
        fun vm' => .ok (j * 4096, vm') := by
  induction g generalizing i with
  | zero => omega
  | succ g ih =>
    have htable : vm.HasTable (.user a) (i * 4096 / 0x400000) := by
      rw [show i * 4096 / 0x400000 = i / 1024 by omega]
      exact ht i (Nat.le_refl i) (by omega)
    have hpage : i * 4096 / 4096 = i := Nat.mul_div_cancel i (by omega)
    have hzero : ∀ m, j ≤ m → m < j + n → vm.entry (.user a) m = 0#32 := by
      intro m h1 h2
      have := (freeRun_of_below hstop).1 hfree (m - j) (by omega)
      rwa [show j + (m - j) = m by omega] at this
    unfold vspaceFrom
    rw [if_pos (by omega)]
    simp only [getTableAlloc_there htable, ok_bind, getPage_table, hpage]
    by_cases hi : vm.entry (.user a) i ≠ 0#32
    · rw [if_pos hi]
      have hlt : i < j := Nat.lt_of_not_le fun hge => hi (hzero i hge (by omega))
      exact ih hlt (by omega) (fun i' h1 h2 => hfirst i' (by omega) h2) fun m h1 h2 => ht m (by omega) h2
    · rw [if_neg hi]
      obtain ⟨r, hr'⟩ := vspaceLength_there (a := a) (i := i) (g := n - 1) (l := 1) (by omega)
        fun m h1 h2 => ht m h1 (by omega)
      obtain ⟨-, hr1, hrn, hrun, hend⟩ := vspaceLength_spec (quiet_grows _) (getTableAlloc_spec _) hr'
      simp only [hr', ok_bind]
      by_cases hrn' : r = n
      · -- the run is long enough, so it is the first one
        have hthis : FreeRun vm (.user a) i n := by
          intro k hk
          rcases Nat.eq_zero_or_pos k with rfl | hk0
          · rw [Nat.add_zero, Nat.mod_eq_of_lt (by omega)]
            exact not_not.1 hi
          · exact hrun k hk0 (by omega)
        obtain rfl : i = j := by
          rcases Nat.eq_or_lt_of_le hij with h | h
          · exact h
          · exact absurd hthis (hfirst i (Nat.le_refl i) h)
        rw [if_pos hrn', hrn']
        rfl
      · rw [if_neg hrn']
        have hused := hend (by omega)
        rw [Nat.mod_eq_of_lt (by omega)] at hused
        have hlt : i + r < j := Nat.lt_of_not_le fun hge => hused (hzero (i + r) hge (by omega))
        exact ih hlt (by omega) (fun i' h1 h2 => hfirst i' (by omega) h2) fun m h1 h2 => ht m (by omega) h2

/-- Stores to entries of directory `a`. -/
structure UserStores (a : Nat) (vm u : Vm) : Prop where
  pmm : u.pmm = vm.pmm
  frames : u.frames = vm.frames
  dirs : ∀ d, d ≠ .user a → u.dirs d = vm.dirs d
  same : SameTables vm u

theorem userStores_setEntry {u : Vm} {w : Word} (h : UserStores a vm u) : UserStores a vm (u.setEntry (.user a) i w) :=
  ⟨h.pmm, h.frames, fun d hd => (dirs_setEntry_of_ne hd).trans (h.dirs d hd), h.same.trans sameTables_setEntry⟩

theorem reserveVspace_stores {start stop : Nat} (h : reserveVspace (.user a) start stop vm = .ok vm') :
    UserStores a vm vm' := by
  refine forRange_keeps (I := UserStores a vm) ?_ h ⟨rfl, rfl, fun _ _ => rfl, SameTables.refl vm⟩
  intro k u u' _ _ hu hmap
  obtain ⟨-, -, rfl⟩ := mapPage_ok hmap
  exact userStores_setEntry hu

/-- The reservation returns where the tables are there. -/
theorem reserveVspace_there (hv : ∀ k, vm.tableVirt ⟨.user a, k⟩ % 1024 = 0) (hstop : j + n < 0x100000)
    (ht : ∀ k < n, vm.HasTable (.user a) ((j + k) / 1024)) :
    ∃ u, reserveVspace (.user a) (j * 4096) ((j * 4096 + n * 4096) % 0x100000000) vm = .ok u := by
  have hcount : ((j * 4096 + n * 4096) % 0x100000000 - j * 4096) / 4096 = n := by omega
  unfold reserveVspace
  rw [hcount]
  refine (forRange_zero_ok (P := fun _ u => SameTables vm u) (fun k u hk hu => ?_) (SameTables.refl vm)).imp
    fun u h => h.1
  have hindex : (j * 4096 + k * 4096) / 0x400000 = (j + k) / 1024 := by omega
  refine ⟨_, mapPage_eq (by omega) ?_ ?_, hu.trans sameTables_setEntry⟩
  · rw [hu.hasTable, hindex]
    exact ht k hk
  · rw [hu.tableVirt]
    exact hv _

/-- A table that is missing has a run of 1024 unmapped pages. -/
theorem FirstRun.tables_before (h : FirstRun vm a n j) (hn : n ≤ 1023) {m : Nat} (h1 : 1 ≤ m) (hm : m < j + n) :
    vm.HasTable (.user a) (m / 1024) := by
  rcases Nat.lt_or_ge m j with hlt | hge
  · by_contra hno
    have hzero : ∀ m', m' / 1024 = m / 1024 → vm.entry (.user a) m' = 0#32 := by
      intro m' hm'
      exact entry_of_no_table (by rwa [hm'])
    -- the first run would start with the table, or with page 1
    obtain ⟨k, hk, hne⟩ := h.first (max 1 (m / 1024 * 1024)) (by omega) (by omega)
    exact hne (hzero _ (by omega))
  · have := h.tables (m - j) (by omega)
    rwa [show j + (m - j) = m by omega] at this

theorem FirstRun.freeRun (h : FirstRun vm a n j) : FreeRun vm (.user a) j n := (freeRun_of_below h.stop).2 h.free

/-- **The search** where the tables of the first run are there. -/
theorem findVspace_there (h : FirstRun vm a n j) (hn : n ≠ 0) (hn' : n ≤ 1023)
    (hv : ∀ k, vm.tableVirt ⟨.user a, k⟩ % 1024 = 0) :
    ∃ u, findVspace (.user a) n vm = .ok (j * 4096, u) ∧
      reserveVspace (.user a) (j * 4096) ((j * 4096 + n * 4096) % 0x100000000) vm = .ok u := by
  obtain ⟨u, hu⟩ := reserveVspace_there hv h.stop h.tables
  refine ⟨u, ?_, hu⟩
  have hstart := h.start
  have hstop := h.stop
  have hfirst : ∀ i, 1 ≤ i → i < j → ¬ FreeRun vm (.user a) i n := by
    intro i h1 h2 hrun
    obtain ⟨k, hk, hne⟩ := h.first i h1 h2
    exact hne ((freeRun_of_below (by omega)).1 hrun k hk)
  have hfind := vspaceFrom_there (g := 0x100000) hn hstart (by omega) hstop h.freeRun hfirst
    fun m h1 h2 => h.tables_before hn' h1 h2
  rw [hu, ok_bind] at hfind
  simp only [findVspace, findVspaceWith, assert_pos hn, ok_bind, hfind]

end Search

/-! ## The loop -/

/-- Frame `b` is taken and cleared. -/
def takeFrame (u : Vm) (pmm : BlockMap) (b : Nat) : Vm :=
  { u with pmm := pmm, frames := Function.update u.frames b fun _ => 0#8 }

/-- The machine after a round: frame `b` is taken, cleared through the scratch page `q` and entered at page `m`. -/
def mmapStored (u : Vm) (pmm : BlockMap) (a q m b : Nat) (prot : Word) : Vm :=
  (((takeFrame u pmm b).setEntry .kernel q (BitVec.ofNat 32 (b * 4096) ||| (pagePresent ||| pageReadwrite))).setEntry
    .kernel q (BitVec.ofNat 32 0 ||| 0#32)).setEntry (.user a) m (BitVec.ofNat 32 (b * 4096) ||| prot)

section Loop

variable {vm u u' : Vm} {pmm : BlockMap} {a i j n m q b : Nat} {prot edx : Word}

theorem sameTables_takeFrame : SameTables u (takeFrame u pmm b) := sameTables_of_dirs rfl rfl

theorem sameTables_mmapStored : SameTables u (mmapStored u pmm a q m b prot) :=
  ((sameTables_takeFrame.trans sameTables_setEntry).trans sameTables_setEntry).trans sameTables_setEntry

theorem entry_mmapStored (hq : u.HasTable .kernel (q / 1024)) (hm : u.HasTable (.user a) (m / 1024)) (d : DirPtr)
    (x : Nat) : (mmapStored u pmm a q m b prot).entry d x =
      if d = .user a ∧ x = m then BitVec.ofNat 32 (b * 4096) ||| prot
      else if d = .kernel ∧ x = q then 0#32 else u.entry d x := by
  have hs : SameTables u (takeFrame u pmm b) := sameTables_takeFrame
  have hq' := (hs.hasTable .kernel (q / 1024)).2 hq
  have hm' := (hs.hasTable (.user a) (m / 1024)).2 hm
  unfold mmapStored
  rw [entry_setEntry (hasTable_setEntry.2 (hasTable_setEntry.2 hm')), entry_setEntry (hasTable_setEntry.2 hq'),
    entry_setEntry hq']
  by_cases hx : d = .kernel ∧ x = q
  · simp only [if_pos hx]
    rfl
  · simp only [if_neg hx]
    rfl

theorem dirs_mmapStored {c : Nat} (hc : c ≠ a) : (mmapStored u pmm a q m b prot).dirs (.user c) = u.dirs (.user c) := by
  unfold mmapStored
  rw [dirs_setEntry_of_ne (by simpa using hc), dirs_setEntry_kernel, dirs_setEntry_kernel]
  rfl

theorem physicalTables_mmapStored : ((mmapStored u pmm a q m b prot).dirs .kernel).physicalTables =
    (u.dirs .kernel).physicalTables := by
  unfold mmapStored
  rw [physicalTables_setEntry.1, physicalTables_setEntry.1, physicalTables_setEntry.1]
  rfl

/-- Clearing a block through the scratch page. -/
theorem fillPage_scratch (hq : u.HasTable .kernel (q / 1024)) (hb : b < 0x100000) (content : Nat → Byte) :
    fillPage (q * 4096) content
        (u.setEntry .kernel q (BitVec.ofNat 32 (b * 4096) ||| (pagePresent ||| pageReadwrite))) =
      .ok { u.setEntry .kernel q (BitVec.ofNat 32 (b * 4096) ||| (pagePresent ||| pageReadwrite)) with
        frames := Function.update u.frames b content } := by
  have hent : (u.setEntry .kernel q (BitVec.ofNat 32 (b * 4096) ||| (pagePresent ||| pageReadwrite))).entry .kernel
      (q * 4096 / 4096) = BitVec.ofNat 32 (b * 4096) ||| (pagePresent ||| pageReadwrite) := by
    rw [Nat.mul_div_cancel q (by omega), entry_setEntry hq, if_pos ⟨rfl, rfl⟩]
  have hpresent : (BitVec.ofNat 32 (b * 4096) ||| (pagePresent ||| pageReadwrite)) &&& pagePresent ≠ 0#32 :=
    present_of_or _ (by decide)
  have hframe : (BitVec.ofNat 32 (b * 4096) ||| (pagePresent ||| pageReadwrite)).toNat / 4096 = b :=
    (frameOf_or (by decide)).trans (frameOf_ofNat hb)
  unfold fillPage kernelFrame
  simp only [hent, if_neg hpresent, hframe]
  rfl

theorem table_index (m : Nat) : m * 4096 / 0x400000 = m / 1024 := by omega

/-- The end of a round: the scratch page is unmapped and the block entered at its page. -/
theorem mmapPage_enters (hs : SameTables vm u) (hk : KernelTables vm) (hv : ∀ k, vm.tableVirt ⟨.user a, k⟩ % 1024 = 0)
    (hq : q < 0x100000) (ht : vm.HasTable (.user a) (m / 1024)) (prot : Word) :
    (do
      let u ← mapPage u (getTable u (q * 4096) .kernel) (q * 4096) 0 0#32
      invalidatePage (q * 4096)
      mapPage u (getTable u (m * 4096) (.user a)) (m * 4096) (b * 4096) prot) =
    .ok ((u.setEntry .kernel q (BitVec.ofNat 32 0 ||| 0#32)).setEntry (.user a) m
      (BitVec.ofNat 32 (b * 4096) ||| prot)) := by
  have hkq := hk (q / 1024) (by omega)
  rw [← hs.hasTable, ← hs.tableVirt, ← table_index] at hkq
  have hmap := mapPage_eq (p := 0) (f := 0#32) (by omega) hkq.1 hkq.2
  rw [Nat.mul_div_cancel q (by omega)] at hmap
  have hs' : SameTables vm (u.setEntry .kernel q (BitVec.ofNat 32 0 ||| 0#32)) := hs.trans sameTables_setEntry
  have ht' := (hs'.hasTable _ _).2 ht
  have hv' := hv (m / 1024)
  rw [← hs'.tableVirt] at hv'
  rw [← table_index] at ht' hv'
  have hmap' := mapPage_eq (p := b * 4096) (f := prot) (by omega) ht' hv'
  rw [Nat.mul_div_cancel m (by omega)] at hmap'
  simp only [hmap, ok_bind, invalidatePage, assert_pos (show q * 4096 % 1024 = 0 by omega), hmap']

/-- **One round**: it takes a block and enters it at a reserved page, or fails. -/
theorem mmapPage_cases (hk : KernelTables u) (hv : ∀ k, u.tableVirt ⟨.user a, k⟩ % 1024 = 0)
    (hzero : u.pmm.used 0 = true) (hq : q < 0x100000) (m : Nat) (prot : Word) :
    (∃ b pmm, b < wholeBlocks u.pmm ∧ u.pmm.used b = false ∧ pmm.size = u.pmm.size ∧
        (∀ c, pmm.used c = (u.pmm.used c || decide (c = b))) ∧ u.HasTable (.user a) (m / 1024) ∧
        u.entry (.user a) m = pageValueReserved ∧
        mmapPage (.user a) (q * 4096) (m * 4096) prot u = .ok (mmapStored u pmm a q m b prot)) ∨
      ((freeBlocks u.pmm = 0 ∨ u.entry (.user a) m ≠ pageValueReserved) ∧
        ∃ e, mmapPage (.user a) (q * 4096) (m * 4096) prot u = .error e) := by
  have hpage : m * 4096 / 4096 = m := Nat.mul_div_cancel m (by omega)
  have hpage' : q * 4096 / 4096 = q := Nat.mul_div_cancel q (by omega)
  have hindex := table_index m
  have hkq := hk (q * 4096 / 0x400000) (by omega)
  rcases pmmAllocBlocksSafe_one hzero with ⟨b, pmm, hb, hfree, halloc, hsize, hused⟩ | ⟨hall, halloc⟩
  swap
  · refine Or.inr ⟨Or.inl (freeBlocks_eq_zero hall), .assertion, ?_⟩
    simp only [mmapPage, halloc, error_bind]
  by_cases ht : u.HasTable (.user a) (m / 1024)
  swap
  · -- the assertion of `get_page`
    have hnone : getTable { u with pmm := pmm } (m * 4096) (.user a) = none :=
      getTable_eq_none.2 (by rw [hindex]; exact ht)
    refine Or.inr ⟨Or.inr ?_, .assertion, ?_⟩
    · rw [entry_of_no_table ht]
      decide
    · simp only [mmapPage, halloc, ok_bind, hnone, getPage]
      rfl
  have hsome : getTable { u with pmm := pmm } (m * 4096) (.user a) = some ⟨.user a, m * 4096 / 0x400000⟩ :=
    getTable_eq_some.2 ⟨by rw [hindex]; exact ht, rfl⟩
  have hget : getPage { u with pmm := pmm } (getTable { u with pmm := pmm } (m * 4096) (.user a)) (m * 4096) =
      .ok (u.entry (.user a) m) := by
    rw [hsome, getPage_table, hpage]
    rfl
  by_cases hres : u.entry (.user a) m = pageValueReserved
  swap
  · refine Or.inr ⟨Or.inr hres, .assertion, ?_⟩
    simp only [mmapPage, halloc, ok_bind, hget, assert_neg hres, error_bind]
  refine Or.inl ⟨b, pmm, hb, hfree, hsize, hused, ht, hres, ?_⟩
  -- the scratch page is mapped to the block, cleared and unmapped again
  have hmap₁ : mapPage { u with pmm := pmm } (getTable { u with pmm := pmm } (q * 4096) .kernel) (q * 4096) (b * 4096)
      (pagePresent ||| pageReadwrite) = .ok _ := mapPage_eq (by omega) hkq.1 hkq.2
  rw [hpage'] at hmap₁
  have hle := u.pmm.size_le
  have hb' : b < 0x100000 := by unfold wholeBlocks at hb; omega
  have hq' : ({ u with pmm := pmm } : Vm).HasTable .kernel (q / 1024) := by
    rw [← table_index]
    exact hkq.1
  have hfill := fillPage_scratch hq' hb' fun _ => 0#8
  have hsame : SameTables u ((takeFrame u pmm b).setEntry .kernel q
      (BitVec.ofNat 32 (b * 4096) ||| (pagePresent ||| pageReadwrite))) :=
    sameTables_takeFrame.trans sameTables_setEntry
  have htail := mmapPage_enters hsame hk hv hq ht prot (b := b)
  simp only [mmapPage, halloc, ok_bind, hget, assert_pos hres, hmap₁, hfill]
  exact htail

/-- The machine after `i` rounds from `s` on, with pages from `j` on and scratch page `q`. -/
structure Rounds (s : Vm) (a j q : Nat) (prot : Word) (i : Nat) (u : Vm) : Prop where
  size : u.pmm.size = s.pmm.size
  used : ∀ b, s.pmm.used b = true → u.pmm.used b = true
  page : ∀ k < i, ∃ b, b < s.pmm.size ∧ s.pmm.used b = false ∧ u.pmm.used b = true ∧
    u.entry (.user a) (j + k) = BitVec.ofNat 32 (b * 4096) ||| prot ∧ ∀ o, u.frames b o = 0#8
  distinct : ∀ k < i, ∀ l < i, frameOf (u.entry (.user a) (j + k)) = frameOf (u.entry (.user a) (j + l)) → k = l
  others : ∀ m, ¬ (j ≤ m ∧ m < j + i) → u.entry (.user a) m = s.entry (.user a) m
  users : ∀ c, c ≠ a → u.dirs (.user c) = s.dirs (.user c)
  kernel : ∀ m, m ≠ q → u.entry .kernel m = s.entry .kernel m
  scratch : 0 < i → u.entry .kernel q = 0#32
  same : SameTables s u
  physical : (u.dirs .kernel).physicalTables = (s.dirs .kernel).physicalTables
  memory : ∀ f, (∀ k < i, frameOf (u.entry (.user a) (j + k)) ≠ f) → u.frames f = s.frames f
  count : freeBlocks u.pmm + i = freeBlocks s.pmm

variable {s : Vm}

theorem Rounds.zero : Rounds s a j q prot 0 s :=
  ⟨rfl, fun _ h => h, fun k hk => by omega, fun k hk => by omega, fun _ _ => rfl, fun _ _ => rfl, fun _ _ => rfl,
    fun h => by omega, SameTables.refl s, rfl, fun _ _ => rfl, rfl⟩

theorem frameOf_page (hb : b < 0x100000) (hp : prot >>> 12 = 0#32) :
    frameOf (BitVec.ofNat 32 (b * 4096) ||| prot) = b := (frameOf_or hp).trans (frameOf_ofNat hb)

/-- The entries of the pages after one more round. -/
theorem entry_round (hq : u.HasTable .kernel (q / 1024)) (ht : u.HasTable (.user a) ((j + i) / 1024)) (k : Nat) :
    (mmapStored u pmm a q (j + i) b prot).entry (.user a) (j + k) =
      if k = i then BitVec.ofNat 32 (b * 4096) ||| prot else u.entry (.user a) (j + k) := by
  rw [entry_mmapStored hq ht]
  by_cases hk : k = i
  · rw [if_pos ⟨rfl, by omega⟩, if_pos hk]
  · rw [if_neg (fun hc => hk (by omega)), if_neg (fun hc => by cases hc.1), if_neg hk]

/-- The blocks of the rounds before are used. -/
theorem Rounds.fresh (h : Rounds s a j q prot i u) (hp : prot >>> 12 = 0#32) (hfree : u.pmm.used b = false) :
    ∀ k < i, frameOf (u.entry (.user a) (j + k)) ≠ b := by
  intro k hk hc
  obtain ⟨b', hb', -, hu', he, -⟩ := h.page k hk
  have := s.pmm.size_le
  rw [he, frameOf_page (by omega) hp] at hc
  rw [hc, hfree] at hu'
  cases hu'

/-- The page of the new round, and the pages before it. -/
theorem Rounds.step_page (h : Rounds s a j q prot i u) (hq : u.HasTable .kernel (q / 1024))
    (ht : u.HasTable (.user a) ((j + i) / 1024)) (hb : b < s.pmm.size) (hfree : u.pmm.used b = false)
    (hused : ∀ c, pmm.used c = (u.pmm.used c || decide (c = b))) {k : Nat} (hk : k < i + 1) :
    ∃ c, c < s.pmm.size ∧ s.pmm.used c = false ∧ pmm.used c = true ∧
      (mmapStored u pmm a q (j + i) b prot).entry (.user a) (j + k) = BitVec.ofNat 32 (c * 4096) ||| prot ∧
        ∀ o, (mmapStored u pmm a q (j + i) b prot).frames c o = 0#8 := by
  rw [entry_round hq ht]
  by_cases hki : k = i
  · rw [if_pos hki]
    refine ⟨b, hb, ?_, ?_, rfl, fun o => ?_⟩
    · by_contra hu
      have := h.used b (by simpa using hu)
      rw [hfree] at this
      cases this
    · rw [hused, decide_eq_true rfl, Bool.or_true]
    · change Function.update u.frames b (fun _ => 0#8) b o = 0#8
      rw [Function.update_self]
  · rw [if_neg hki]
    obtain ⟨b', hb', hf', hu', he, hz⟩ := h.page k (by omega)
    refine ⟨b', hb', hf', by rw [hused, hu', Bool.true_or], he, fun o => ?_⟩
    have hne : b' ≠ b := by
      rintro rfl
      rw [hfree] at hu'
      cases hu'
    change Function.update u.frames b (fun _ => 0#8) b' o = 0#8
    rw [Function.update_of_ne hne]
    exact hz o

/-- The block of the new round is not one of the blocks before it. -/
theorem Rounds.step_distinct (h : Rounds s a j q prot i u) (hp : prot >>> 12 = 0#32)
    (hq : u.HasTable .kernel (q / 1024)) (ht : u.HasTable (.user a) ((j + i) / 1024)) (hb : b < 0x100000)
    (hfree : u.pmm.used b = false) {k l : Nat} (hk : k < i + 1) (hl : l < i + 1)
    (hkl : frameOf ((mmapStored u pmm a q (j + i) b prot).entry (.user a) (j + k)) =
      frameOf ((mmapStored u pmm a q (j + i) b prot).entry (.user a) (j + l))) : k = l := by
  have hnew := h.fresh hp hfree
  rw [entry_round hq ht, entry_round hq ht] at hkl
  by_cases hki : k = i
  · by_cases hli : l = i
    · rw [hki, hli]
    · rw [if_pos hki, if_neg hli, frameOf_page hb hp] at hkl
      exact absurd hkl.symm (hnew l (by omega))
  · by_cases hli : l = i
    · rw [if_neg hki, if_pos hli, frameOf_page hb hp] at hkl
      exact absurd hkl (hnew k (by omega))
    · rw [if_neg hki, if_neg hli] at hkl
      exact h.distinct k (by omega) l (by omega) hkl

/-- **One more round.** -/
theorem Rounds.step (h : Rounds s a j q prot i u) (hp : prot >>> 12 = 0#32) (hq : u.HasTable .kernel (q / 1024))
    (ht : u.HasTable (.user a) ((j + i) / 1024)) (hb : b < wholeBlocks u.pmm) (hfree : u.pmm.used b = false)
    (hsize : pmm.size = u.pmm.size) (hused : ∀ c, pmm.used c = (u.pmm.used c || decide (c = b))) :
    Rounds s a j q prot (i + 1) (mmapStored u pmm a q (j + i) b prot) := by
  have hent : ∀ d x, (mmapStored u pmm a q (j + i) b prot).entry d x = _ := entry_mmapStored hq ht
  have hbu : b < u.pmm.size := by
    unfold wholeBlocks at hb
    omega
  have hlt : b < 0x100000 := by
    have := u.pmm.size_le
    omega
  have hmono : ∀ c, u.pmm.used c = true → pmm.used c = true := fun c hc => by rw [hused, hc, Bool.true_or]
  refine ⟨hsize.trans h.size, fun c hc => hmono c (h.used c hc),
    fun k hk => h.step_page hq ht (by rwa [← h.size]) hfree hused hk,
    fun k hk l hl => h.step_distinct hp hq ht hlt hfree hk hl,
    fun m hm => ?_, fun c hc => (dirs_mmapStored hc).trans (h.users c hc), fun m hm => ?_, fun _ => ?_,
    h.same.trans sameTables_mmapStored, physicalTables_mmapStored.trans h.physical, fun f hf => ?_, ?_⟩
  · rw [hent, if_neg (fun hc => hm (by omega)), if_neg (fun hc => by cases hc.1)]
    exact h.others m fun hc => hm (by omega)
  · rw [hent, if_neg (fun hc => by cases hc.1), if_neg (fun hc => hm hc.2)]
    exact h.kernel m hm
  · rw [hent, if_neg (fun hc => by cases hc.1), if_pos ⟨rfl, rfl⟩]
  · have hfb : f ≠ b := by
      have := hf i (by omega)
      rw [entry_round hq ht, if_pos rfl, frameOf_page hlt hp] at this
      exact Ne.symm this
    change Function.update u.frames b (fun _ => 0#8) f = s.frames f
    rw [Function.update_of_ne hfb]
    apply h.memory f
    intro k hk
    have := hf k (by omega)
    rwa [entry_round hq ht, if_neg (by omega)] at this
  · have := freeBlocks_mark hsize hused hb hfree
    have := h.count
    change freeBlocks pmm + (i + 1) = freeBlocks s.pmm
    omega

end Loop

/-! ## The call -/

section Call

variable {vm s u vm₁ s₁ : Vm} {a j n q : Nat} {len edx r : Word}

/-- The machine before the loop: the pages are reserved and the scratch page is taken. -/
structure Reserved (vm : Vm) (a n j q : Nat) (s : Vm) : Prop where
  pmm : s.pmm = vm.pmm
  frames : s.frames = vm.frames
  reserved : ∀ m, j ≤ m → m < j + n → s.entry (.user a) m = pageValueReserved
  others : ∀ m, ¬ (j ≤ m ∧ m < j + n) → s.entry (.user a) m = vm.entry (.user a) m
  users : ∀ c, c ≠ a → s.dirs (.user c) = vm.dirs (.user c)
  kernel : ∀ m, m ≠ q → s.entry .kernel m = vm.entry .kernel m
  was_free : vm.entry .kernel q = 0#32
  below : q < 0x100000
  same : SameTables vm s
  physical : (s.dirs .kernel).physicalTables = (vm.dirs .kernel).physicalTables

theorem SameTables.kernelTables (h : SameTables vm s) (hk : KernelTables vm) : KernelTables s := by
  intro k hlt
  rw [h.hasTable, h.tableVirt]
  exact hk k hlt

/-- The reservation and the scratch page. -/
theorem reserved_of_searches {kptr : Nat} (hj : j + n < 0x100000)
    (hres : reserveVspace (.user a) (j * 4096) ((j * 4096 + n * 4096) % 0x100000000) vm = .ok s₁)
    (hscratch : findVspace .kernel 1 s₁ = .ok (kptr, s)) (hal : kptr % 1024 = 0) :
    ∃ q, kptr = q * 4096 ∧ 1 ≤ q ∧ Reserved vm a n j q s := by
  have hstores := reserveVspace_stores hres
  have hent := reserveVspace_ok (Nat.mul_mod_left j 4096) hres (.user a)
  have hcount : ((j * 4096 + n * 4096) % 0x100000000 - j * 4096) / 4096 = n := by omega
  simp only [Nat.mul_div_cancel j (show 0 < 4096 by omega), hcount, true_and] at hent
  have hkernel : s₁.dirs .kernel = vm.dirs .kernel := hstores.dirs .kernel (by simp)
  rw [findVspace_kernel] at hscratch
  rcases findVspaceKernel_one hscratch with ⟨rfl, -⟩ | ⟨q, h1, h2, rfl, hfree, hcase⟩
  · exact absurd hal (by decide)
  refine ⟨q, rfl, h1, ?_⟩
  rw [entry_of_dirs hkernel] at hfree
  have hpre : Reserved vm a n j q s₁ := by
    refine ⟨hstores.pmm, hstores.frames, fun m hm hm' => ?_, fun m hm => ?_,
      fun c hc => hstores.dirs _ (by simpa using hc), fun m _ => entry_of_dirs hkernel m, hfree, h2, hstores.same,
      by rw [hkernel]⟩
    · rw [hent, if_pos ⟨hm, hm'⟩]
    · rw [hent, if_neg hm]
  rcases hcase with ⟨-, rfl⟩ | ⟨-, ht, rfl⟩
  · exact hpre
  · refine ⟨hpre.pmm, hpre.frames, fun m hm hm' => ?_, fun m hm => ?_, fun c hc => ?_, fun m hm => ?_, hfree, h2,
      hpre.same.trans sameTables_setEntry, physicalTables_setEntry.1.trans hpre.physical⟩
    · rw [entry_of_dirs dirs_setEntry_kernel, hpre.reserved m hm hm']
    · rw [entry_of_dirs dirs_setEntry_kernel, hpre.others m hm]
    · rw [dirs_setEntry_kernel, hpre.users c hc]
    · rw [entry_setEntry ht, if_neg (fun hc => hm hc.2), hpre.kernel m hm]

/-- The pages of the range. -/
theorem overlaps_pages (hj : j * 4096 < 0x100000000) (hlen : len.toNat = n * 4096) {m : Nat} :
    Overlaps (BitVec.ofNat 32 (j * 4096)).toNat ((BitVec.ofNat 32 (j * 4096)).toNat + len.toNat) m ↔
      j ≤ m ∧ m < j + n := by
  rw [BitVec.toNat_ofNat, Nat.mod_eq_of_lt hj, hlen]
  unfold Overlaps
  omega

theorem page_not_writable (b : Nat) : BitVec.ofNat 32 (b * 4096) &&& pageReadwrite = 0#32 := by
  have hbit : (BitVec.ofNat 32 (b * 4096)).getLsbD 1 = false := by
    have hdiv : ¬ b * 4096 / 2 ^ 1 % 2 = 1 := by omega
    rw [BitVec.getLsbD_ofNat, Nat.testBit_eq_decide_div_mod_eq, decide_eq_false hdiv, Bool.and_false]
  rw [show pageReadwrite = BitVec.twoPow 32 1 by decide, BitVec.and_twoPow, hbit]
  rfl

/-- The entry of a mapped page. -/
theorem mmapEntry_page {b : Nat} : MmapEntry edx (BitVec.ofNat 32 (b * 4096) ||| mmapProt edx) := by
  refine ⟨present_of_or _ ?_, user_of_or _ (mmapProt_user edx), ?_⟩
  · unfold mmapProt
    split <;> decide
  · constructor
    · intro hw
      by_contra hne
      apply hw
      rw [BitVec.and_or_distrib_right, page_not_writable, mmapProt, if_neg hne]
      decide
    · rintro rfl
      exact readwrite_of_or _ (by decide)

/-- After all rounds the range is mapped. -/
theorem mmapped_of_rounds (hs : Reserved vm a n j q s) (h : Rounds s a j q (mmapProt edx) n u) (hn : n ≠ 0)
    (hj : j + n < 0x100000) (hfree : ∀ k < n, vm.entry (.user a) (j + k) = 0#32) (hlen : len.toNat = n * 4096) :
    Mmapped vm a len edx (BitVec.ofNat 32 (j * 4096)) u := by
  have hover : ∀ m, Overlaps (BitVec.ofNat 32 (j * 4096)).toNat
      ((BitVec.ofNat 32 (j * 4096)).toNat + len.toNat) m ↔ j ≤ m ∧ m < j + n :=
    fun m => overlaps_pages (by omega) hlen
  have hpage : ∀ m, j ≤ m → m < j + n → ∃ b, b < vm.pmm.size ∧ vm.pmm.used b = false ∧ u.pmm.used b = true ∧
      u.entry (.user a) m = BitVec.ofNat 32 (b * 4096) ||| mmapProt edx ∧ ∀ o, u.frames b o = 0#8 := by
    intro m h1 h2
    have := h.page (m - j) (by omega)
    rwa [hs.pmm, show j + (m - j) = m by omega] at this
  have hframe : ∀ m b, b < vm.pmm.size → u.entry (.user a) m = BitVec.ofNat 32 (b * 4096) ||| mmapProt edx →
      frameOf (u.entry (.user a) m) = b := by
    intro m b hb he
    have := vm.pmm.size_le
    rw [he, frameOf_page (by omega) (mmapProt_shift edx)]
  refine ⟨?_, fun m hm => ?_, fun m hm => ?_, fun m hm => ?_, fun m hm => ?_, fun m m' hm hm' heq => ?_, fun m hm => ?_,
    fun c hc => (h.users c hc).trans (hs.users c hc), fun f hf => ?_, ?_⟩
  · rw [BitVec.toNat_ofNat]
    omega
  · rw [hover] at hm
    have := hfree (m - j) (by omega)
    rwa [show j + (m - j) = m by omega] at this
  · rw [hover] at hm
    obtain ⟨b, -, -, -, he, -⟩ := hpage m hm.1 hm.2
    rw [he]
    exact mmapEntry_page
  · rw [hover] at hm
    obtain ⟨b, hb, hf, hu, he, -⟩ := hpage m hm.1 hm.2
    rw [hframe m b hb he]
    exact ⟨hb, hf, hu⟩
  · rw [hover] at hm
    obtain ⟨b, hb, -, -, he, hz⟩ := hpage m hm.1 hm.2
    rw [hframe m b hb he]
    exact hz
  · rw [hover] at hm hm'
    have := h.distinct (m - j) (by omega) (m' - j) (by omega)
    rw [show j + (m - j) = m by omega, show j + (m' - j) = m' by omega] at this
    have := this heq
    omega
  · rw [hover] at hm
    exact (h.others m hm).trans (hs.others m hm)
  · refine (h.memory f fun k hk => ?_).trans (by rw [hs.frames])
    exact hf (j + k) ((hover _).2 ⟨by omega, by omega⟩)
  · refine ⟨fun m => ?_, fun k => ((hs.same.trans h.same).hasTable _ k), fun k => (hs.same.trans h.same).tableVirt _ k,
      h.physical.trans hs.physical⟩
    by_cases hm : m = q
    · rw [hm, h.scratch (by omega), hs.was_free]
    · rw [h.kernel m hm, hs.kernel m hm]

/-- A search and a loop of the call. -/
theorem mmap_eq (h : len.toNat ≤ 4096 * 300) : syscallMmapAnon (.user a) 0#32 len edx vm = (do
    let (base, vm) ← findVspace (.user a) (len.toNat / 4096) vm
    let (kptr, vm) ← findVspace .kernel 1 vm
    kassert (kptr ≠ 0)
    let vm ← forRange (fun i vm => mmapPage (.user a) kptr ((base + i * 4096) % 0x100000000) (mmapProt edx) vm)
      0 (len.toNat / 4096) vm
    return (BitVec.ofNat 32 base, vm)) := by
  unfold syscallMmapAnon
  rw [if_neg (by omega)]
  simp only [mmapAddr, if_true]

/-- A round of the loop takes a block and goes on, or fails because there is none. -/
theorem loop_round (edx : Word) (hs : Reserved vm a n j q s) (hk : KernelTables vm)
    (hv : ∀ k, vm.tableVirt ⟨.user a, k⟩ % 1024 = 0) (hzero : vm.pmm.used 0 = true) (hj : j + n < 0x100000) {i : Nat}
    (hi : i < n) (hu : Rounds s a j q (mmapProt edx) i u) :
    (∃ t, mmapPage (.user a) (q * 4096) ((j * 4096 + i * 4096) % 0x100000000) (mmapProt edx) u = .ok t ∧
        Rounds s a j q (mmapProt edx) (i + 1) t) ∨
      (freeBlocks vm.pmm = i ∧ ∃ e,
        mmapPage (.user a) (q * 4096) ((j * 4096 + i * 4096) % 0x100000000) (mmapProt edx) u = .error e) := by
  have hsame := hs.same.trans hu.same
  have haddr : (j * 4096 + i * 4096) % 0x100000000 = (j + i) * 4096 := by omega
  have hku := SameTables.kernelTables hsame hk
  have hentry : u.entry (.user a) (j + i) = pageValueReserved := by
    rw [hu.others _ (by omega), hs.reserved _ (by omega) (by omega)]
  have hcount := hu.count
  rw [hs.pmm] at hcount
  rw [haddr]
  rcases mmapPage_cases (a := a) hku (fun k => by rw [hsame.tableVirt]; exact hv k)
    (hu.used 0 (by rw [hs.pmm]; exact hzero)) hs.below (j + i) (mmapProt edx) with
    ⟨b, pmm, hb, hfree, hsize, hused, ht, -, hround⟩ | ⟨hno | hno, hround⟩
  · have hq := (hku (q / 1024) (by have := hs.below; omega)).1
    exact Or.inl ⟨_, hround, hu.step (mmapProt_shift edx) hq ht hb hfree hsize hused⟩
  · exact Or.inr ⟨by omega, hround⟩
  · exact absurd hentry hno

/-- The loop returns when there are frames. -/
theorem loop_returns (edx : Word) (hs : Reserved vm a n j q s) (hk : KernelTables vm)
    (hv : ∀ k, vm.tableVirt ⟨.user a, k⟩ % 1024 = 0) (hzero : vm.pmm.used 0 = true) (hj : j + n < 0x100000)
    (hblocks : n ≤ freeBlocks vm.pmm) :
    ∃ u, forRange (fun i vm => mmapPage (.user a) (q * 4096) ((j * 4096 + i * 4096) % 0x100000000) (mmapProt edx) vm)
      0 n s = .ok u ∧ Rounds s a j q (mmapProt edx) n u := by
  refine forRange_zero_ok (fun i u hi hu => ?_) Rounds.zero
  rcases loop_round edx hs hk hv hzero hj hi hu with hround | ⟨hno, -⟩
  · exact hround
  · omega

/-- **Where the call fits, it maps the range.** -/
theorem mmapped_of_fits (hzero : vm.pmm.used 0 = true) (hk : KernelTables vm)
    (hv : ∀ k, vm.tableVirt ⟨.user a, k⟩ % 1024 = 0) (h1 : 1 ≤ len.toNat) (h2 : len.toNat ≤ 4096 * 300)
    (h : MmapFits vm a len) :
    ∃ r vm', syscallMmapAnon (.user a) 0#32 len edx vm = .ok (r, vm') ∧ Mmapped vm a len edx r vm' := by
  obtain ⟨hpages, ⟨j, hrun⟩, ⟨p, hp1, hp2, hpfree⟩, hblocks⟩ := h
  have hlen : len.toNat = len.toNat / 4096 * 4096 := by omega
  have hn : len.toNat / 4096 ≠ 0 := by omega
  have hn' : len.toNat / 4096 ≤ 1023 := by omega
  rw [mmap_eq h2]
  generalize len.toNat / 4096 = n at *
  obtain ⟨s₁, hfind, hres⟩ := findVspace_there hrun hn hn' hv
  have hstores := reserveVspace_stores hres
  have hk₁ := SameTables.kernelTables hstores.same hk
  have hfree : FreeRun s₁ .kernel p 1 := by
    intro k hk1
    rw [show (p + k) % 0x100000 = p by omega, entry_of_dirs (hstores.dirs .kernel (by simp))]
    exact hpfree
  rcases findVspace_cases hk₁ (show 1 ≠ 0 by omega) (by omega) with ⟨-, hno⟩ | ⟨i, s, hscratch, -⟩
  · exact absurd hfree (hno p hp1 hp2)
  obtain ⟨q, hqi, hq, hs⟩ := reserved_of_searches hrun.stop hres hscratch (by omega)
  obtain rfl : i = q := by omega
  obtain ⟨u, hloop, hrounds⟩ := loop_returns edx hs hk hv hzero hrun.stop hblocks
  refine ⟨_, u, ?_, mmapped_of_rounds hs hrounds hn hrun.stop hrun.free hlen⟩
  simp only [hfind, ok_bind, hscratch, assert_pos (show i * 4096 ≠ 0 by omega), hloop]
  rfl

/-- **Inversion** for a round: both addresses are aligned, the page is reserved, and of the kernel directory only the
scratch page is touched. -/
theorem mmapPage_inv {kptr v : Nat} {prot : Word} (h : mmapPage (.user a) kptr v prot s = .ok u) :
    kptr % 1024 = 0 ∧ v % 1024 = 0 ∧ s.entry (.user a) (v / 4096) = pageValueReserved ∧
      ∀ m, m ≠ kptr / 4096 → u.entry .kernel m = s.entry .kernel m := by
  simp only [mmapPage, bind_eq_ok, assert_eq_ok, Prod.exists] at h
  obtain ⟨phys, pmm, -, w, hget, -, hw, s₁, hmap₁, s₂, hfill, s₃, hmap₂, -, -, hmap₃⟩ := h
  obtain ⟨hal, ht₁, rfl⟩ := mapPage_ok hmap₁
  simp only [fillPage, bind_eq_ok, pure_eq_ok] at hfill
  obtain ⟨frame, -, rfl⟩ := hfill
  obtain ⟨-, ht₂, rfl⟩ := mapPage_ok hmap₂
  obtain ⟨hal', ht₃, rfl⟩ := mapPage_ok hmap₃
  refine ⟨hal, hal', ?_, fun m hm => ?_⟩
  · cases ht : getTable { s with pmm := pmm } v (.user a) with
    | none =>
      rw [ht] at hget
      cases hget
    | some t =>
      obtain ⟨-, rfl⟩ := getTable_eq_some.1 ht
      rw [ht, getPage_table, Except.ok.injEq] at hget
      rw [← hw, ← hget]
      rfl
  · have hent₁ : ({ s with pmm := pmm }.setEntry .kernel (kptr / 4096)
        (BitVec.ofNat 32 phys ||| (pagePresent ||| pageReadwrite))).entry .kernel m = s.entry .kernel m := by
      rw [entry_setEntry ht₁, if_neg (fun hc => hm hc.2)]
      rfl
    rw [entry_setEntry ht₃, if_neg (fun hc => by cases hc.1), entry_setEntry ht₂, if_neg (fun hc => hm hc.2)]
    exact hent₁

/-- The loop from a search that has returned. -/
theorem loop_first {kptr base : Nat} {prot : Word} (hn : n ≠ 0)
    (hloop : forRange (fun i vm => mmapPage (.user a) kptr ((base + i * 4096) % 0x100000000) prot vm) 0 n s = .ok u) :
    kptr % 1024 = 0 ∧ base % 0x100000000 % 1024 = 0 ∧
      s.entry (.user a) (base % 0x100000000 / 4096) = pageValueReserved ∧
      ∀ m, m ≠ kptr / 4096 → u.entry .kernel m = s.entry .kernel m := by
  have hkernel := forRange_keeps (I := fun u => ∀ m, m ≠ kptr / 4096 → u.entry .kernel m = s.entry .kernel m)
    (fun i t t' _ _ ht hround m hm => ((mmapPage_inv hround).2.2.2 m hm).trans (ht m hm)) hloop fun _ _ => rfl
  obtain ⟨n, rfl⟩ := Nat.exists_eq_succ_of_ne_zero hn
  simp only [forRange_succ, bind_eq_ok, Nat.zero_mul, Nat.add_zero] at hloop
  obtain ⟨t, hround, -⟩ := hloop
  obtain ⟨hal, hal', hentry, -⟩ := mmapPage_inv hround
  exact ⟨hal, hal', hentry, hkernel⟩

/-- The loop that has returned has taken a block for each page. -/
theorem loop_rounds (hs : Reserved vm a n j q s) (hk : KernelTables vm)
    (hv : ∀ k, vm.tableVirt ⟨.user a, k⟩ % 1024 = 0) (hzero : vm.pmm.used 0 = true) (hj : j + n < 0x100000)
    (hloop : forRange
      (fun i vm => mmapPage (.user a) (q * 4096) ((j * 4096 + i * 4096) % 0x100000000) (mmapProt edx) vm) 0 n s =
        .ok u) : Rounds s a j q (mmapProt edx) n u := by
  have hinv := forRange_inv (P := fun i u => Rounds s a j q (mmapProt edx) i u) ?_ hloop Rounds.zero
  · rwa [Nat.zero_add] at hinv
  intro i t t' _ hi ht hround
  rcases loop_round edx hs hk hv hzero hj (by omega) ht with ⟨t₁, heq, hrounds⟩ | ⟨-, e, he⟩
  · rw [heq, Except.ok.injEq] at hround
    subst hround
    exact hrounds
  · rw [he] at hround
    cases hround

/-- A run that reaches the last page is not reserved, so the first round fails. -/
theorem reserved_below {kptr : Nat} (hgrows : Grows (.user a) vm vm₁) (hfree : FreeRun vm (.user a) j n)
    (hj : j < 0x100000) (hn : n ≤ 0x100000)
    (hres : reserveVspace (.user a) (j * 4096) ((j * 4096 + n * 4096) % 0x100000000) vm₁ = .ok s₁)
    (hscratch : findVspace .kernel 1 s₁ = .ok (kptr, s)) (hentry : s.entry (.user a) j = pageValueReserved) :
    j + n < 0x100000 := by
  by_contra htop
  have husers : s.dirs (.user a) = s₁.dirs (.user a) := by
    rcases findVspace_stores hscratch with ⟨-, rfl⟩ | ⟨i, -, -, -, -, -, hstores⟩
    · rfl
    · exact hstores.users a
  -- the reservation ends at address 0
  have hcount : ((j * 4096 + n * 4096) % 0x100000000 - j * 4096) / 4096 = 0 := by omega
  have hent := reserveVspace_ok (Nat.mul_mod_left j 4096) hres (.user a) j
  rw [hcount, if_neg (by omega), hgrows.same] at hent
  have hzero := hfree 0 (by omega)
  rw [Nat.add_zero, Nat.mod_eq_of_lt hj] at hzero
  rw [entry_of_dirs husers, hent, hzero] at hentry
  exact absurd hentry (by decide)

/-- A page of the kernel directory that is taken during the search stays. -/
theorem taken_kept {kptr p : Nat}
    (hres : reserveVspace (.user a) (j * 4096) ((j * 4096 + n * 4096) % 0x100000000) vm₁ = .ok s₁)
    (hscratch : findVspace .kernel 1 s₁ = .ok (kptr, s)) (hal : kptr % 1024 = 0) (hp : vm₁.entry .kernel p ≠ 0#32)
    (hkernel : ∀ m, m ≠ kptr / 4096 → u.entry .kernel m = s.entry .kernel m) : u.entry .kernel p ≠ 0#32 := by
  have hp₁ : s₁.entry .kernel p ≠ 0#32 := by
    rw [entry_of_dirs ((reserveVspace_stores hres).dirs .kernel (by simp))]
    exact hp
  have hne : p ≠ kptr / 4096 := by
    rw [findVspace_kernel] at hscratch
    rcases findVspaceKernel_one hscratch with ⟨rfl, -⟩ | ⟨q, -, -, rfl, hfree, -⟩
    · exact absurd hal (by decide)
    · rw [Nat.mul_div_cancel q (by omega)]
      rintro rfl
      exact hp₁ hfree
  rw [hkernel p hne]
  exact findVspace_keeps hscratch hp₁

/-- **Where the call maps the range, it fits.** -/
theorem fits_of_mmapped (hzero : vm.pmm.used 0 = true) (hk : KernelTables vm)
    (hv : ∀ k, vm.tableVirt ⟨.user a, k⟩ % 1024 = 0) (h2 : len.toNat ≤ 4096 * 300)
    (h : syscallMmapAnon (.user a) 0#32 len edx vm = .ok (r, u)) (hm : Mmapped vm a len edx r u) :
    MmapFits vm a len := by
  rw [mmap_eq h2] at h
  simp only [bind_eq_ok, assert_eq_ok, pure_eq_ok, Prod.exists, Prod.mk.injEq] at h
  obtain ⟨base, s₁, hfind, kptr, s, hscratch, -, -, u', hloop, hr, rfl⟩ := h
  obtain ⟨hn, hfit⟩ := findVspace_looksUp hfind
  obtain ⟨hal, hal', hentry, hkernel⟩ := loop_first hn hloop
  have hpages : len.toNat < (len.toNat / 4096 + 1) * 4096 := by omega
  have hn' : len.toNat / 4096 * 4096 ≤ len.toNat := by omega
  generalize hlen : len.toNat / 4096 = n at *
  rcases hfit with ⟨rfl, -, -⟩ | ⟨j, vm₁, h1, hj, rfl, hfree, hfirst, hlook, hres⟩
  · exact absurd hal' (by decide)
  rw [show j * 4096 % 0x100000000 / 4096 = j by omega] at hentry
  have hstop := reserved_below hlook.grows hfree hj (by omega) hres hscratch hentry
  -- a table taken during the search would still be seen in the kernel directory
  rcases hlook.takes with rfl | ⟨p, hp, hp'⟩
  swap
  · exact absurd ((hm.kernel.entry p).trans hp) (taken_kept hres hscratch hal hp' hkernel)
  obtain ⟨q, rfl, hq, hs⟩ := reserved_of_searches hstop hres hscratch hal
  have hrounds := loop_rounds hs hk hv hzero hstop hloop
  have hrun : FirstRun vm₁ a n j := by
    refine ⟨h1, hstop, (freeRun_of_below hstop).1 hfree, fun i hi1 hij => ?_, fun k hk' => ?_⟩
    · have hno := hfirst i hi1 hij
      rw [freeRun_of_below (by omega)] at hno
      by_contra hall
      exact hno fun k hk' => by_contra fun hne => hall ⟨k, hk', hne⟩
    · by_contra hno
      have hzero' := entry_of_no_table fun ht => hno ((hs.same.hasTable _ _).1 ht)
      rw [hs.reserved (j + k) (by omega) (by omega)] at hzero'
      exact absurd hzero' (by decide)
  have hcount := hrounds.count
  rw [hs.pmm] at hcount
  refine ⟨?_, ⟨j, by rwa [hlen]⟩, ⟨q, hq, hs.below, hs.was_free⟩, by omega⟩
  · by_contra hne
    have hover : Overlaps (BitVec.ofNat 32 (j * 4096)).toNat
        ((BitVec.ofNat 32 (j * 4096)).toNat + len.toNat) (j + n) := by
      rw [BitVec.toNat_ofNat, Nat.mod_eq_of_lt (by omega)]
      unfold Overlaps
      omega
    rw [hr] at hover
    have hpresent := (hm.mapped _ hover).present
    rw [hrounds.others _ (by omega), hs.others _ (by omega), hm.was_free _ hover] at hpresent
    exact hpresent (by decide)

end Call

/-- **Anonymous memory.** For `1 ≤ len ≤ 300 * 4096` and every `prot`, `syscall_mmap_anon(0, len, prot)` does its work
exactly when `len` is a number of pages, the first run of so many unmapped pages of the directory ends below the last
page and has its tables, a page of the kernel directory is free, and there are frames for the pages. -/
theorem syscall_mmap_anon_maps (vm : Vm) (a : Nat) (len edx : Word) (hzero : vm.pmm.used 0 = true)
    (hk : KernelTables vm) (hv : ∀ k, vm.tableVirt ⟨.user a, k⟩ % 1024 = 0) (h1 : 1 ≤ len.toNat)
    (h2 : len.toNat ≤ 4096 * 300) :
    (∃ r vm', syscallMmapAnon (.user a) 0#32 len edx vm = .ok (r, vm') ∧ Mmapped vm a len edx r vm') ↔
      MmapFits vm a len := by
  constructor
  · rintro ⟨r, vm', h, hm⟩
    exact fits_of_mmapped hzero hk hv h2 h hm
  · exact mmapped_of_fits hzero hk hv h1 h2

/-- Two pages on the small machine. -/
theorem syscall_mmap_anon_two_pages :
    ∃ r vm', syscallMmapAnon (.user 0) 0#32 0x2000#32 3#32 smallVm = .ok (r, vm') ∧
      Mmapped smallVm 0 0x2000#32 3#32 r vm' := by
  refine (syscall_mmap_anon_maps smallVm 0 0x2000#32 3#32 rfl (fun k _ => ⟨⟨_, rfl⟩, rfl⟩) (fun k => rfl) (by decide)
    (by decide)).2 ⟨by decide, ⟨1, by decide, by decide, fun k _ => rfl, fun i h1 h2 => by omega, fun k _ => ⟨_, rfl⟩⟩,
      ⟨1, by decide, by decide, rfl⟩, by decide⟩

/-- Less than a page: no page is asked for, and `find_vspace` fails its assertion. -/
theorem syscall_mmap_anon_one_byte :
    ¬ ∃ r vm', syscallMmapAnon (.user 0) 0#32 1#32 3#32 smallVm = .ok (r, vm') ∧ Mmapped smallVm 0 1#32 3#32 r vm' := by
  have hr : syscallMmapAnon (.user 0) 0#32 1#32 3#32 smallVm = .error .assertion := by rfl
  rintro ⟨r, vm', h, -⟩
  rw [hr] at h
  cases h

end Myunix.Syscall
