import Myunix.Process.Clone
import Myunix.Syscall.Rw

/-!
# Copies from and to user memory (`syscall.c`)

`copy_from_userspace` and `copy_to_userspace` map the pages of a user range at scratch pages of the kernel directory,
copy through them, and take the scratch pages down again. A page that is missing or lacks a right stops the mapping in
the middle; what was mapped so far is taken down by the mapper and, once more, by the caller.

* `SameBut j n` says that only the scratch pages from `j` to `j + n` of the kernel directory may differ; every loop
  keeps it, whichever page it stops at.
* `userspace_copies` says what the two functions return and copy, and that the directories are as before.
-/

namespace Myunix.Syscall

open Lib Vmm Process

/-! ## The code -/

/-- `*(char *)va` for the kernel. -/
def kernelLoad (vm : Vm) (va : Nat) : Kernel Byte := do
  let frame ← kernelFrame vm va
  return vm.frames frame (va % 4096)

/-- `memcpy(buffer, (void *)src, len)`: `rep movsb` from memory that the kernel sees at `src`. -/
def memcpyFrom (vm : Vm) (src len : Nat) (buffer : Nat → Byte) : Kernel (Nat → Byte) := do
  kassert (src ≠ 0 ∧ len ≠ 0)
  forRange (fun i buffer => do return Function.update buffer i (← kernelLoad vm ((src + i) % 0x100000000)))
    0 len buffer

/-- `*(char *)va = b` for the kernel. -/
def kernelStore (vm : Vm) (va : Nat) (b : Byte) : Kernel Vm := do
  let frame ← kernelFrame vm va
  return { vm with frames := Function.update vm.frames frame (Function.update (vm.frames frame) (va % 4096) b) }

/-- `memcpy((void *)dest, buffer, len)`. -/
def memcpyTo (vm : Vm) (dest len : Nat) (buffer : Nat → Byte) : Kernel Vm := do
  kassert (dest ≠ 0 ∧ len ≠ 0)
  forRange (fun i vm => kernelStore vm ((dest + i) % 0x100000000) (buffer i)) 0 len vm

/-- The part that both functions have in common: the mapping with its number of blocks, or the return of -1. -/
def mapCopy (vm : Vm) (pdir : DirPtr) (ptr n : Word) : Kernel (Option Nat × Vm) := do
  let sizeInBlocks := nBlocks ptr n
  kassert (sizeInBlocks ≠ 0)
  let (kptr, vm) ← findVspace .kernel sizeInBlocks vm
  if kptr = 0 then return (none, vm)
  else
    let (done, vm) ← mapUserspaceToKernel vm pdir (ptr &&& ~~~ 0xFFF#32).toNat kptr sizeInBlocks
    if done then return (some kptr, vm)
    else
      let vm ← unmapFromKernel kptr sizeInBlocks vm
      return (none, vm)

/-- `kptr2 = kptr + (ptr & 0xFFF)`. -/
def kptr2 (kptr : Nat) (ptr : Word) : Nat := (kptr + (ptr &&& 0xFFF#32).toNat) % 0x100000000

/-- `copy_from_userspace`; `buffer i` is the byte at `buffer + i`. -/
def copyFromUserspace (vm : Vm) (pdir : DirPtr) (ptr n : Word) (buffer : Nat → Byte) :
    Kernel (Word × (Nat → Byte) × Vm) := do
  let (kptr, vm) ← mapCopy vm pdir ptr n
  match kptr with
  | none => return (0xFFFFFFFF#32, buffer, vm)
  | some kptr =>
    let buffer ← memcpyFrom vm (kptr2 kptr ptr) n.toNat buffer
    let vm ← unmapFromKernel kptr (nBlocks ptr n) vm
    return (n, buffer, vm)

/-- `copy_to_userspace`. -/
def copyToUserspace (vm : Vm) (pdir : DirPtr) (ptr n : Word) (buffer : Nat → Byte) : Kernel (Word × Vm) := do
  let (kptr, vm) ← mapCopy vm pdir ptr n
  match kptr with
  | none => return (0xFFFFFFFF#32, vm)
  | some kptr =>
    let vm ← memcpyTo vm (kptr2 kptr ptr) n.toNat buffer
    let vm ← unmapFromKernel kptr (nBlocks ptr n) vm
    return (n, vm)

/-! ## What the functions promise -/

/-- An entry that is present, writable and the user's. -/
def UserEntry (e : Word) : Prop := e &&& pagePresent ≠ 0#32 ∧ e &&& pageReadwrite ≠ 0#32 ∧ e &&& pageUser ≠ 0#32

/-- Every page that overlaps the `n` bytes at `ptr` is present, writable and the user's. -/
def UserRange (vm : Vm) (pdir : DirPtr) (ptr n : Nat) : Prop :=
  ∀ m, m * 4096 < ptr + n → ptr < (m + 1) * 4096 → UserEntry (vm.entry pdir m)

/-- Where the byte at `va` is in physical memory: its frame and offset. -/
def userPlace (vm : Vm) (pdir : DirPtr) (va : Nat) : Nat × Nat := (frameOf (vm.entry pdir (va / 4096)), va % 4096)

/-- `frames'` is `frames` after stores of `buffer 0`, …, `buffer (n - 1)` to the places `place 0`, …: a byte has the
value of the last store to its place, and a byte that is no such place keeps its value. -/
structure Stored (place : Nat → Nat × Nat) (buffer : Nat → Byte) (n : Nat) (frames frames' : Nat → Nat → Byte) :
    Prop where
  last : ∀ k < n, (∀ l, k < l → l < n → place l ≠ place k) → frames' (place k).1 (place k).2 = buffer k
  others : ∀ f o, (∀ k < n, place k ≠ (f, o)) → frames' f o = frames f o

/-- Physical memory and the kernel entries of the pages from `j` to `j + n` apart, `vm'` is `vm`. -/
structure SameBut (j n : Nat) (vm vm' : Vm) : Prop where
  pmm : vm'.pmm = vm.pmm
  nextDir : vm'.nextDir = vm.nextDir
  user : ∀ a, vm'.dirs (.user a) = vm.dirs (.user a)
  tables : ∀ k, vm'.HasTable .kernel k ↔ vm.HasTable .kernel k
  virt : ∀ k, vm'.tableVirt ⟨.kernel, k⟩ = vm.tableVirt ⟨.kernel, k⟩
  physical : (vm'.dirs .kernel).physicalTables = (vm.dirs .kernel).physicalTables
  entry : ∀ m, m < j ∨ j + n ≤ m → vm'.entry .kernel m = vm.entry .kernel m

/-- Physical memory apart, `vm'` is `vm`: every directory and every entry is as before. -/
def Restored (vm vm' : Vm) : Prop := SameBut 0 0 vm vm'

/-- What `dump_directory` asserts of a directory: its two arrays of tables agree. -/
structure TablesAgree (d : PageDirectory) : Prop where
  zero : ∀ i, d.physicalTables i = 0#32 → (d.tables i).isNone
  present : ∀ i, d.physicalTables i &&& pagePresent ≠ 0#32 → (d.tables i).isSome

/-! ## The scratch pages -/

section Scratch

variable {j n : Nat} {vm u : Vm}

theorem SameBut.refl : SameBut j n vm vm := ⟨rfl, rfl, fun _ => rfl, fun _ => Iff.rfl, fun _ => rfl, rfl, fun _ _ => rfl⟩

theorem SameBut.kernelTables (h : SameBut j n vm u) (hk : KernelTables vm) : KernelTables u := by
  intro k hlt
  rw [h.tables, h.virt]
  exact hk k hlt

/-- Physical memory does not matter. -/
theorem SameBut.setFrames (h : SameBut j n vm u) (frames : Nat → Nat → Byte) :
    SameBut j n vm { u with frames := frames } :=
  ⟨h.pmm, h.nextDir, h.user, h.tables, h.virt, h.physical, h.entry⟩

/-- A store to a scratch page. -/
theorem SameBut.setEntry (h : SameBut j n vm u) (hk : KernelTables vm) {p : Nat} {w : Word} (hp : j ≤ p)
    (hp' : p < j + n) (hn : j + n ≤ 0x100000) : SameBut j n vm (u.setEntry .kernel p w) := by
  have ht : u.HasTable .kernel (p / 1024) := (h.kernelTables hk (p / 1024) (by omega)).1
  refine ⟨h.pmm, h.nextDir, fun a => ?_, fun k => ?_, fun k => ?_, ?_, fun m hm => ?_⟩
  · rw [dirs_setEntry_kernel, h.user]
  · rw [hasTable_setEntry, h.tables]
  · rw [tableVirt_setEntry, h.virt]
  · rw [physicalTables_setEntry.1, h.physical]
  · rw [entry_setEntry ht, if_neg (by omega), h.entry m hm]

/-- `map_page` on a scratch page. -/
theorem SameBut.mapPage_eq (h : SameBut j n vm u) (hk : KernelTables vm) {p x : Nat} {f : Word}
    (hp' : p < j + n) (hn : j + n ≤ 0x100000) :
    mapPage u (getTable u (p * 4096) .kernel) (p * 4096) x f =
      .ok (u.setEntry .kernel p (BitVec.ofNat 32 x ||| f)) := by
  have ht := h.kernelTables hk (p * 4096 / 0x400000) (by omega)
  have hpage : p * 4096 / 4096 = p := by omega
  rw [Vmm.mapPage_eq (by omega) ht.1 ht.2, hpage]

theorem SameBut.setEntry_entry (h : SameBut j n vm u) (hk : KernelTables vm) {p m : Nat} {w : Word}
    (hp' : p < j + n) (hn : j + n ≤ 0x100000) :
    (u.setEntry .kernel p w).entry .kernel m = if m = p then w else u.entry .kernel m := by
  rw [entry_setEntry (h.kernelTables hk (p / 1024) (by omega)).1]
  simp only [true_and]

/-- The scratch pages are clear again. -/
theorem SameBut.restored (h : SameBut j n vm u) (hfree : ∀ k < n, vm.entry .kernel (j + k) = 0#32)
    (hclear : ∀ k < n, u.entry .kernel (j + k) = 0#32) : Restored vm u := by
  refine ⟨h.pmm, h.nextDir, h.user, h.tables, h.virt, h.physical, fun m _ => ?_⟩
  by_cases hm : m < j ∨ j + n ≤ m
  · exact h.entry m hm
  · have hk : m - j < n := by omega
    have hmj : j + (m - j) = m := by omega
    rw [← hmj, hfree _ hk, hclear _ hk]

/-- A user directory and its entries are not touched. -/
theorem SameBut.entry_user (h : SameBut j n vm u) {a m : Nat} : u.entry (.user a) m = vm.entry (.user a) m := by
  unfold Vm.entry Vm.pageAt
  rw [h.user]

end Scratch

/-! ## The loops -/

section Loops

variable {j n i : Nat} {vm u : Vm}

/-- The reservation of a run below the last page. -/
theorem reserveVspace_scratch (hk : KernelTables vm) (hj : j + n < 0x100000)
    (hres : reserveVspace .kernel (j * 4096) ((j * 4096 + n * 4096) % 0x100000000) vm = .ok u) :
    SameBut j n vm u ∧ u.frames = vm.frames ∧ ∀ k < n, u.entry .kernel (j + k) = pageValueReserved := by
  have hcount : ((j * 4096 + n * 4096) % 0x100000000 - j * 4096) / 4096 = n := by omega
  have hent := reserveVspace_ok (by omega) hres .kernel
  unfold reserveVspace at hres
  rw [hcount] at hres
  have hinv := forRange_keeps (I := fun u => SameBut j n vm u ∧ u.frames = vm.frames) ?_ hres ⟨SameBut.refl, rfl⟩
  · refine ⟨hinv.1, hinv.2, fun k hk => ?_⟩
    rw [hent, if_pos ⟨rfl, by omega, by omega⟩]
  · rintro k u u' - hk' ⟨hs, hf⟩ hmap
    have hva : j * 4096 + k * 4096 = (j + k) * 4096 := by omega
    rw [hva, hs.mapPage_eq hk (by omega) (by omega), Except.ok.injEq] at hmap
    subst hmap
    exact ⟨hs.setEntry hk (by omega) (by omega) (by omega), hf⟩

/-- **A search on the kernel directory** takes the first run of free pages. A run below the last page is reserved; one
that reaches the last page is not. -/
theorem findVspace_cases (hk : KernelTables vm) (hn : n ≠ 0) (hmax : n ≤ 0x100000) :
    (findVspace .kernel n vm = .ok (noVspace, vm) ∧ ∀ j, 1 ≤ j → j < 0x100000 → ¬ FreeRun vm .kernel j n) ∨
    ∃ j u, findVspace .kernel n vm = .ok (j * 4096, u) ∧ 1 ≤ j ∧ j < 0x100000 ∧ FreeRun vm .kernel j n ∧
      (∀ i, 1 ≤ i → i < j → ¬ FreeRun vm .kernel i n) ∧
      (j + n < 0x100000 ∧ SameBut j n vm u ∧ u.frames = vm.frames ∧
          (∀ k < n, u.entry .kernel (j + k) = pageValueReserved) ∨
        0x100000 ≤ j + n ∧ u = vm) := by
  obtain ⟨v, u, hfind, -⟩ := findVspaceKernel_total hk hn
  have hsearch := hfind
  simp only [findVspaceKernel, findVspaceWith, assert_pos hn, ok_bind] at hsearch
  rcases vspaceFrom_spec (quiet_eq .kernel) kernelTable_spec hn (by omega) hsearch with
    ⟨rfl, rfl, hno⟩ | ⟨j, vm₁, h1, h2, rfl, hfree, hfirst, rfl, hres⟩
  · exact Or.inl ⟨findVspace_kernel.trans hfind, hno⟩
  · refine Or.inr ⟨j, u, findVspace_kernel.trans hfind, h1, h2, hfree, hfirst, ?_⟩
    by_cases hj : j + n < 0x100000
    · exact Or.inl ⟨hj, reserveVspace_scratch hk hj hres⟩
    · -- the end address wraps, so the loop has no round
      have hcount : ((j * 4096 + n * 4096) % 0x100000000 - j * 4096) / 4096 = 0 := by omega
      unfold reserveVspace at hres
      rw [hcount] at hres
      cases hres
      exact Or.inr ⟨by omega, rfl⟩

/-- A search that finds a run below the last page reserves scratch pages that were free. -/
theorem findVspace_scratch (hk : KernelTables vm) (hn : n ≠ 0)
    (hrun : ∃ j, 1 ≤ j ∧ j + n < 0x100000 ∧ ∀ k < n, vm.entry .kernel (j + k) = 0#32) :
    ∃ j u, findVspace .kernel n vm = .ok (j * 4096, u) ∧ 1 ≤ j ∧ j + n < 0x100000 ∧ SameBut j n vm u ∧
      u.frames = vm.frames ∧ (∀ k < n, vm.entry .kernel (j + k) = 0#32) ∧
      ∀ k < n, u.entry .kernel (j + k) = pageValueReserved := by
  obtain ⟨i, hi1, hi, hif⟩ := hrun
  have hi' := (freeRun_of_below hi).2 hif
  rcases findVspace_cases hk hn (by omega) with ⟨-, hno⟩ | ⟨j, u, hfind, h1, h2, hfree, hfirst, hcase⟩
  · exact absurd hi' (hno i hi1 (by omega))
  · have hj : j + n < 0x100000 := by
      by_contra hge
      exact hfirst i hi1 (by omega) hi'
    rcases hcase with ⟨-, hs, hf, hres⟩ | ⟨hge, -⟩
    · exact ⟨j, u, hfind, h1, hj, hs, hf, (freeRun_of_below hj).1 hfree, hres⟩
    · omega

/-- A search for one page. -/
theorem findVspace_scratch_one (hk : KernelTables vm) (hrun : ∃ j, 1 ≤ j ∧ j < 0xFFFFF ∧ vm.entry .kernel j = 0#32) :
    ∃ j u, findVspace .kernel 1 vm = .ok (j * 4096, u) ∧ 1 ≤ j ∧ j + 1 < 0x100000 ∧ SameBut j 1 vm u ∧
      u.frames = vm.frames ∧ vm.entry .kernel j = 0#32 := by
  obtain ⟨i, hi1, hi, hfree⟩ := hrun
  have hone : ∃ j, 1 ≤ j ∧ j + 1 < 0x100000 ∧ ∀ k < 1, vm.entry .kernel (j + k) = 0#32 := by
    refine ⟨i, hi1, by omega, fun k hk => ?_⟩
    rw [show k = 0 by omega]
    exact hfree
  obtain ⟨j, u, hfind, hj1, hj, hs, hf, hfree, -⟩ := findVspace_scratch hk Nat.one_ne_zero hone
  exact ⟨j, u, hfind, hj1, hj, hs, hf, hfree 0 Nat.one_pos⟩

/-- The address of scratch page `i`, as the loops compute it. -/
theorem scratch_addr (hi : i < n) (hn : j + n ≤ 0x100000) :
    (j * 4096 + i * 4096) % 0x100000000 = (j + i) * 4096 ∧ (i * 4096 + j * 4096) % 0x100000000 = (j + i) * 4096 := by
  omega

/-- **`unmap_from_kernel`** clears the scratch pages. -/
theorem unmapFromKernel_ok (hk : KernelTables vm) (hn0 : n ≠ 0) (hn : j + n ≤ 0x100000) (h : SameBut j n vm u) :
    ∃ u', unmapFromKernel (j * 4096) n u = .ok u' ∧ SameBut j n vm u' ∧ u'.frames = u.frames ∧
      ∀ k < n, u'.entry .kernel (j + k) = 0#32 := by
  unfold unmapFromKernel
  rw [assert_bind hn0]
  refine forRange_zero_ok (P := fun i u' => SameBut j n vm u' ∧ u'.frames = u.frames ∧
    ∀ k < i, u'.entry .kernel (j + k) = 0#32) ?_ ⟨h, rfl, fun k hk => absurd hk (Nat.not_lt_zero k)⟩
  rintro i w hi ⟨hs, hf, hclear⟩
  simp only [(scratch_addr hi hn).2]
  refine ⟨_, hs.mapPage_eq hk (by omega) hn, hs.setEntry hk (by omega) (by omega) hn, hf, fun k hki => ?_⟩
  rw [hs.setEntry_entry hk (by omega) hn]
  by_cases hik : k = i
  · exact if_pos (by omega)
  · rw [if_neg (by omega)]
    exact hclear k (by omega)

/-- The cleanup of the mapper, wherever it stops. -/
theorem unmapMapped_ok (hk : KernelTables vm) (hn : j + n ≤ 0x100000) {rest : Nat} (hrest : i + rest ≤ n)
    (h : SameBut j n vm u) :
    ∃ u', unmapMapped (j * 4096) rest i u = .ok u' ∧ SameBut j n vm u' ∧ u'.frames = u.frames := by
  induction rest generalizing i u with
  | zero => exact ⟨u, rfl, h, rfl⟩
  | succ rest ih =>
    have ht := (h.kernelTables hk ((j + i) * 4096 / 0x400000) (by omega)).1
    have hi : i < n := by omega
    simp only [unmapMapped, (scratch_addr hi hn).2, getTable_eq_some.2 ⟨ht, rfl⟩, getPage_table, ok_bind]
    split
    · exact ⟨u, rfl, h, rfl⟩
    · obtain ⟨u', hu', hs, hf⟩ := ih (i := i + 1) (by omega) (h.setEntry hk (p := j + i) (by omega) (by omega) hn)
      refine ⟨u', ?_, hs, hf⟩
      rw [← getTable_eq_some.2 ⟨ht, rfl⟩, h.mapPage_eq hk (by omega) hn, ok_bind, hu']

end Loops

/-! ## Mapping the user's pages -/

section Map

variable {j n i a p : Nat} {vm u : Vm} {pdir : DirPtr}

theorem entry_of_no_table {d : DirPtr} {m : Nat} (h : ¬ vm.HasTable d (m / 1024)) : vm.entry d m = 0#32 := by
  unfold Vm.entry Vm.pageAt
  cases ht : (vm.dirs d).tables (m / 1024) with
  | none => rfl
  | some t => exact absurd ⟨t, ht⟩ h

theorem not_userEntry_zero : ¬ UserEntry 0#32 := fun h => h.1 (by decide)

theorem user_addr (hi : i < n) (hp : p + n ≤ 0x100000) : (p * 4096 + i * 4096) % 0x100000000 = (p + i) * 4096 := by
  omega

theorem page_addr (p : Nat) : p * 4096 / 4096 = p := Nat.mul_div_cancel p (by omega)

/-- One round of the mapper at the scratch page `q`, on a directory whose entry of the page is `e`: it stops unless the
user may write the page, and else maps it at the scratch page. -/
theorem mapUserPages_round (hk : KernelTables vm) (hn : j + n ≤ 0x100000) (h : SameBut j n vm u) {q : Nat} (hq : j ≤ q)
    (hq' : q < j + n) {ptr kptr uaddr : Nat} (huaddr : (ptr + i * 4096) % 0x100000000 = uaddr)
    (hkaddr : (kptr + i * 4096) % 0x100000000 = q * 4096) (hpage : uaddr / 4096 = p) {e : Word}
    (he : (u.setEntry .kernel q 0#32).entry pdir p = e) (rest : Nat) :
    ∃ u', SameBut j n vm u' ∧ u'.frames = u.frames ∧
      (∀ m, m ≠ q → u'.entry .kernel m = u.entry .kernel m) ∧
      (UserEntry e ∧ u'.entry .kernel q = e ||| (pagePresent ||| pageReadwrite) ∧
          mapUserPages pdir ptr kptr (rest + 1) i u = mapUserPages pdir ptr kptr rest (i + 1) u' ∨
        ¬ UserEntry e ∧ u'.entry .kernel q = 0#32 ∧ mapUserPages pdir ptr kptr (rest + 1) i u = .ok (false, u')) := by
  have hal : q * 4096 % 1024 = 0 := by omega
  have hmap : ∀ {w : Vm} {x : Nat} {f : Word}, SameBut j n vm w →
      mapPage w (getTable w (q * 4096) .kernel) (q * 4096) x f =
        .ok (w.setEntry .kernel q (BitVec.ofNat 32 x ||| f)) := fun hw => hw.mapPage_eq hk hq' hn
  have hs : SameBut j n vm (u.setEntry .kernel q 0#32) := h.setEntry hk hq hq' hn
  have hzero : ∀ m, m ≠ q → (u.setEntry .kernel q 0#32).entry .kernel m = u.entry .kernel m := by
    intro m hm
    rw [h.setEntry_entry hk hq' hn, if_neg hm]
  have hcleared : (u.setEntry .kernel q 0#32).entry .kernel q = 0#32 := by
    rw [h.setEntry_entry hk hq' hn, if_pos rfl]
  have hclear : BitVec.ofNat 32 0 ||| 0#32 = 0#32 := BitVec.or_zero
  simp only [mapUserPages, hkaddr, huaddr, hmap h, ok_bind, invalidatePage, assert_pos hal, hclear]
  cases ht : getTable (u.setEntry .kernel q 0#32) uaddr pdir with
  | none =>
    have hno := getTable_eq_none.1 ht
    rw [← table_of_page, hpage] at hno
    rw [entry_of_no_table hno] at he
    subst he
    exact ⟨_, hs, rfl, hzero, Or.inr ⟨not_userEntry_zero, hcleared, rfl⟩⟩
  | some table =>
    obtain ⟨-, rfl⟩ := getTable_eq_some.1 ht
    simp only [getPage_table, hpage, he, ok_bind]
    by_cases hue : UserEntry e
    · have hgood : ¬ (e &&& pagePresent = 0#32 ∨ e &&& pageReadwrite = 0#32 ∨ e &&& pageUser = 0#32) := by
        rintro (h1 | h1 | h1)
        · exact hue.1 h1
        · exact hue.2.1 h1
        · exact hue.2.2 h1
      rw [if_neg hgood, hmap hs, ok_bind, BitVec.ofNat_toNat, BitVec.setWidth_eq]
      refine ⟨_, hs.setEntry hk hq hq' hn, rfl, fun m hm => ?_, Or.inl ⟨hue, ?_, rfl⟩⟩
      · rw [hs.setEntry_entry hk hq' hn, if_neg hm, hzero m hm]
      · rw [hs.setEntry_entry hk hq' hn, if_pos rfl]
    · have hbad : e &&& pagePresent = 0#32 ∨ e &&& pageReadwrite = 0#32 ∨ e &&& pageUser = 0#32 := by
        by_contra hno
        push Not at hno
        exact hue hno
      rw [if_pos hbad]
      exact ⟨_, hs, rfl, hzero, Or.inr ⟨hue, hcleared, rfl⟩⟩

/-- The mapper has mapped the pages below `i`. -/
def MappedTo (vm u : Vm) (pdir : DirPtr) (j p i : Nat) : Prop :=
  ∀ k < i, UserEntry (vm.entry pdir (p + k)) ∧
    u.entry .kernel (j + k) = vm.entry pdir (p + k) ||| (pagePresent ||| pageReadwrite)

/-- The mapper on a user directory: it stops at the first page the user may not write, or maps all pages. -/
theorem mapUserPages_user (hk : KernelTables vm) (hn : j + n ≤ 0x100000) (hp : p + n ≤ 0x100000) {rest : Nat}
    (hrest : i + rest = n) (h : SameBut j n vm u) (hm : MappedTo vm u (.user a) j p i) :
    ∃ done u', mapUserPages (.user a) (p * 4096) (j * 4096) rest i u = .ok (done, u') ∧ SameBut j n vm u' ∧
      u'.frames = u.frames ∧ (done = true ∧ MappedTo vm u' (.user a) j p n ∨
        done = false ∧ ∃ k < n, ¬ UserEntry (vm.entry (.user a) (p + k))) := by
  induction rest generalizing i u with
  | zero =>
    subst hrest
    exact ⟨true, u, rfl, h, rfl, Or.inl ⟨rfl, hm⟩⟩
  | succ rest ih =>
    have hi : i < n := by omega
    have hs : SameBut j n vm (u.setEntry .kernel (j + i) 0#32) := h.setEntry hk (by omega) (by omega) hn
    obtain ⟨u₁, hs₁, hf₁, hkeep, ⟨hue, hnew, hgo⟩ | ⟨hbad, -, hstop⟩⟩ :=
      mapUserPages_round hk hn h (Nat.le_add_right j i) (Nat.add_lt_add_left hi j) (user_addr hi hp)
        (scratch_addr hi hn).1 (page_addr (p + i)) (hs.entry_user (a := a)) rest
    · have hm₁ : MappedTo vm u₁ (.user a) j p (i + 1) := by
        intro k hki
        by_cases hik : k = i
        · subst hik; exact ⟨hue, hnew⟩
        · rw [hkeep (j + k) (by omega)]
          exact hm k (by omega)
      obtain ⟨done, u', hrun, hs', hf', hcase⟩ := ih (by omega) hs₁ hm₁
      exact ⟨done, u', hgo.trans hrun, hs', hf'.trans hf₁, hcase⟩
    · exact ⟨false, u₁, hstop, hs₁, hf₁, Or.inr ⟨rfl, i, hi, hbad⟩⟩

/-- No page of the kernel directory is the user's. -/
def NoUserPages (vm : Vm) : Prop := ∀ m, vm.entry .kernel m &&& pageUser = 0#32

/-- The mapper on the kernel directory itself stops at once, since no page there is the user's. -/
theorem mapUserPages_kernel (hk : KernelTables vm) (hn : j + n ≤ 0x100000) (hp : p + n ≤ 0x100000) (hn0 : n ≠ 0)
    (hno : NoUserPages vm) (h : SameBut j n vm u) (hres : ∀ k < n, u.entry .kernel (j + k) = pageValueReserved) :
    ∃ u', mapUserPages .kernel (p * 4096) (j * 4096) n 0 u = .ok (false, u') ∧ SameBut j n vm u' ∧
      u'.frames = u.frames := by
  have hi : 0 < n := Nat.pos_of_ne_zero hn0
  have hsee : (u.setEntry .kernel (j + 0) 0#32).entry .kernel (p + 0) &&& pageUser = 0#32 := by
    rw [h.setEntry_entry hk (by omega) hn]
    split
    · decide
    · by_cases hout : p + 0 < j ∨ j + n ≤ p + 0
      · rw [h.entry _ hout]
        exact hno _
      · have hin : j + (p - j) = p + 0 := by omega
        rw [← hin, hres (p - j) (by omega)]
        decide
  obtain ⟨rest, rfl⟩ := Nat.exists_eq_succ_of_ne_zero hn0
  obtain ⟨u', hs, hf, -, ⟨hue, -⟩ | ⟨-, -, hstop⟩⟩ :=
    mapUserPages_round hk hn h (Nat.le_add_right j 0) (Nat.add_lt_add_left hi j) (user_addr hi hp)
      (scratch_addr hi hn).1 (page_addr (p + 0)) rfl rest
  · exact absurd hsee hue.2.2
  · exact ⟨u', hstop, hs, hf⟩

theorem dumpDirectory_ok (hd : TablesAgree (u.dirs pdir)) : dumpDirectory u pdir = .ok ⟨⟩ := by
  apply forRange_idle
  intro i _ _
  dsimp only
  split
  · rename_i hz
    exact assert_pos (hd.zero i hz)
  · split
    · rename_i hpres
      exact assert_pos (hd.present i hpres)
    · rfl

/-- Only which tables are there matters. -/
theorem TablesAgree.congr {d d' : PageDirectory} (hd : TablesAgree d) (hphys : d'.physicalTables = d.physicalTables)
    (hsome : ∀ i, (d'.tables i).isSome ↔ (d.tables i).isSome) : TablesAgree d' := by
  refine ⟨fun i hz => ?_, fun i hpres => ?_⟩
  · rw [hphys] at hz
    rw [← Option.not_isSome, Bool.not_eq_true', ← Bool.not_eq_true, hsome, Bool.not_eq_true, ← Bool.not_eq_true',
      Option.not_isSome]
    exact hd.zero i hz
  · rw [hphys] at hpres
    exact (hsome i).2 (hd.present i hpres)

/-- The arrays of tables are as they were. -/
theorem SameBut.tablesAgree (h : SameBut j n vm u) (hd : TablesAgree (vm.dirs pdir)) : TablesAgree (u.dirs pdir) := by
  cases pdir with
  | user a => rw [h.user]; exact hd
  | kernel =>
    have hsome : ∀ i, ((u.dirs .kernel).tables i).isSome ↔ ((vm.dirs .kernel).tables i).isSome := by
      intro i
      rw [Option.isSome_iff_exists, Option.isSome_iff_exists]
      exact h.tables i
    exact hd.congr h.physical hsome

/-- A call of the mapper has ended with `done`: all pages are mapped, or one of them is not the user's. -/
def MapResult (vm u : Vm) (pdir : DirPtr) (j p n : Nat) (done : Bool) (u' : Vm) : Prop :=
  SameBut j n vm u' ∧ u'.frames = u.frames ∧ (done = true ∧ MappedTo vm u' pdir j p n ∨
    done = false ∧ ∃ k < n, ¬ UserEntry (vm.entry pdir (p + k)))

/-- After its loop the mapper returns, or takes down what it mapped. -/
theorem mapUserspaceToKernel_of_loop (hk : KernelTables vm) (hd : TablesAgree (vm.dirs pdir)) (hn : j + n ≤ 0x100000)
    (hn0 : n ≠ 0) {done : Bool} {u' : Vm}
    (hrun : mapUserPages pdir (p * 4096) (j * 4096) n 0 u = .ok (done, u')) (h : MapResult vm u pdir j p n done u') :
    ∃ u'', mapUserspaceToKernel u pdir (p * 4096) (j * 4096) n = .ok (done, u'') ∧
      MapResult vm u pdir j p n done u'' := by
  have hargs : p * 4096 % 4096 = 0 ∧ j * 4096 % 4096 = 0 ∧ n ≠ 0 := ⟨by omega, by omega, hn0⟩
  obtain ⟨hs, hf, hcase⟩ := h
  unfold mapUserspaceToKernel
  rw [assert_bind hargs, hrun, ok_bind]
  rcases hcase with ⟨rfl, hm⟩ | ⟨rfl, hbad⟩
  · exact ⟨u', rfl, hs, hf, Or.inl ⟨rfl, hm⟩⟩
  · obtain ⟨u'', hun, hs', hf'⟩ := unmapMapped_ok hk hn (Nat.zero_add n).le hs
    refine ⟨u'', ?_, hs', hf'.trans hf, Or.inr ⟨rfl, hbad⟩⟩
    simp only [dumpDirectory_ok (hs.tablesAgree hd), hun, ok_bind, Bool.false_eq_true, if_false]
    rfl

/-- `map_userspace_to_kernel` on a user directory, whatever the scratch pages hold. -/
theorem mapUserspaceToKernel_user (hk : KernelTables vm) (hd : TablesAgree (vm.dirs (.user a)))
    (hn : j + n ≤ 0x100000) (hp : p + n ≤ 0x100000) (hn0 : n ≠ 0) (h : SameBut j n vm u) :
    ∃ done u', mapUserspaceToKernel u (.user a) (p * 4096) (j * 4096) n = .ok (done, u') ∧
      MapResult vm u (.user a) j p n done u' := by
  obtain ⟨done, u', hrun, hres⟩ :=
    mapUserPages_user hk hn hp (Nat.zero_add n) h (fun k hk => absurd hk (Nat.not_lt_zero k))
  exact ⟨done, mapUserspaceToKernel_of_loop hk hd hn hn0 hrun hres⟩

/-- **`map_userspace_to_kernel`** maps all pages, or returns -1 when the user may not write one of them. -/
theorem mapUserspaceToKernel_ok (hk : KernelTables vm) (hd : TablesAgree (vm.dirs pdir))
    (hu : pdir = .kernel → NoUserPages vm) (hn : j + n ≤ 0x100000) (hp : p + n ≤ 0x100000) (hn0 : n ≠ 0)
    (h : SameBut j n vm u) (hres : ∀ k < n, u.entry .kernel (j + k) = pageValueReserved) :
    ∃ done u', mapUserspaceToKernel u pdir (p * 4096) (j * 4096) n = .ok (done, u') ∧
      MapResult vm u pdir j p n done u' := by
  cases pdir with
  | user a => exact mapUserspaceToKernel_user hk hd hn hp hn0 h
  | kernel =>
    obtain ⟨u', hrun, hs, hf⟩ := mapUserPages_kernel hk hn hp hn0 (hu rfl) h hres
    have hno : ¬ UserEntry (vm.entry .kernel (p + 0)) := fun hue => hue.2.2 (hu rfl _)
    exact ⟨false, mapUserspaceToKernel_of_loop hk hd hn hn0 hrun
      ⟨hs, hf, Or.inr ⟨rfl, 0, Nat.pos_of_ne_zero hn0, hno⟩⟩⟩

end Map

/-! ## The copies -/

section Copies

variable {j : Nat} {vm u : Vm} {pdir : DirPtr} {ptr n : Word}

/-- The pages that overlap the range are the `nBlocks` pages from the one of `ptr` on. -/
theorem overlap_iff (hn : n ≠ 0#32) (hsum : 4095 + n.toNat + (ptr &&& 0xFFF#32).toNat < 0x100000000) {m : Nat} :
    m * 4096 < ptr.toNat + n.toNat ∧ ptr.toNat < (m + 1) * 4096 ↔
      ptr.toNat / 4096 ≤ m ∧ m < ptr.toNat / 4096 + nBlocks ptr n := by
  have hoff := offset_toNat ptr
  have hpos : 0 < n.toNat := Nat.pos_of_ne_zero fun h => hn (BitVec.eq_of_toNat_eq h)
  rw [nBlocks_eq, hoff, Nat.mod_eq_of_lt (by omega)]
  omega

theorem userRange_iff (hn : n ≠ 0#32) (hsum : 4095 + n.toNat + (ptr &&& 0xFFF#32).toNat < 0x100000000) :
    UserRange vm pdir ptr.toNat n.toNat ↔
      ∀ k < nBlocks ptr n, UserEntry (vm.entry pdir (ptr.toNat / 4096 + k)) := by
  constructor
  · intro h k hk
    obtain ⟨h1, h2⟩ := (overlap_iff hn hsum (m := ptr.toNat / 4096 + k)).2 ⟨by omega, by omega⟩
    exact h _ h1 h2
  · intro h m h1 h2
    obtain ⟨h3, h4⟩ := (overlap_iff hn hsum).1 ⟨h1, h2⟩
    have hm := h (m - ptr.toNat / 4096) (by omega)
    rwa [show ptr.toNat / 4096 + (m - ptr.toNat / 4096) = m by omega] at hm

/-- Through the scratch pages the kernel reaches the frames of the user's pages. -/
theorem kernelFrame_mapped {i N p : Nat} (hm : MappedTo vm u pdir j p N) (hj : j + N ≤ 0x100000) {va : Nat}
    (hp : va / 4096 = p) (hi : (va + i) / 4096 < p + N) :
    kernelFrame u ((j * 4096 + va % 4096 + i) % 0x100000000) = .ok (userPlace vm pdir (va + i)).1 ∧
      (j * 4096 + va % 4096 + i) % 0x100000000 % 4096 = (userPlace vm pdir (va + i)).2 := by
  have hpage : (j * 4096 + va % 4096 + i) % 0x100000000 / 4096 = j + ((va + i) / 4096 - p) := by omega
  have hva : p + ((va + i) / 4096 - p) = (va + i) / 4096 := by omega
  obtain ⟨hue, hent⟩ := hm ((va + i) / 4096 - p) (by omega)
  rw [hva] at hue hent
  have hpres : (vm.entry pdir ((va + i) / 4096) ||| (pagePresent ||| pageReadwrite)) &&& pagePresent ≠ 0#32 := by
    intro hz
    rw [BitVec.and_or_distrib_right, BitVec.or_eq_zero_iff] at hz
    exact hue.1 hz.1
  refine ⟨?_, ?_⟩
  · unfold kernelFrame
    simp only [hpage, hent, if_neg hpres]
    exact congrArg Except.ok (frameOf_or (by decide))
  · show _ = (va + i) % 4096
    omega

/-- `memcpy` out of places that the kernel sees one after the other at `src`. -/
theorem memcpyFrom_ok {src len : Nat} {place : Nat → Nat × Nat} {b : Nat → Byte} (hsrc : src ≠ 0) (hlen : len ≠ 0)
    (h : ∀ i < len, kernelFrame u ((src + i) % 0x100000000) = .ok (place i).1 ∧
      (src + i) % 0x100000000 % 4096 = (place i).2) :
    memcpyFrom u src len b = .ok fun i => if i < len then u.frames (place i).1 (place i).2 else b i := by
  have hargs : src ≠ 0 ∧ len ≠ 0 := ⟨hsrc, hlen⟩
  unfold memcpyFrom
  rw [assert_bind hargs]
  have hstep : ∀ i c, i < len → c = (fun k => if k < i then u.frames (place k).1 (place k).2 else b k) →
      ∃ c', (do return Function.update c i (← kernelLoad u ((src + i) % 0x100000000)) : Kernel (Nat → Byte)) = .ok c' ∧
        c' = fun k => if k < i + 1 then u.frames (place k).1 (place k).2 else b k := by
    rintro i c hi rfl
    unfold kernelLoad
    rw [(h i hi).1, (h i hi).2, ok_bind]
    refine ⟨_, rfl, ?_⟩
    funext k
    by_cases hk : k = i
    · subst hk
      rw [Function.update_self, if_pos (by omega)]
    · rw [Function.update_of_ne hk]
      exact if_congr (by omega) rfl rfl
  obtain ⟨c, hc, rfl⟩ := forRange_zero_ok hstep (funext fun k => (if_neg (Nat.not_lt_zero k)).symm)
  exact hc

/-- One store more. -/
theorem Stored.snoc {place : Nat → Nat × Nat} {buffer : Nat → Byte} {i : Nat} {frames frames' : Nat → Nat → Byte}
    (h : Stored place buffer i frames frames') :
    Stored place buffer (i + 1) frames (Function.update frames' (place i).1
      (Function.update (frames' (place i).1) (place i).2 (buffer i))) := by
  have hnew : Function.update frames' (place i).1 (Function.update (frames' (place i).1) (place i).2 (buffer i))
      (place i).1 (place i).2 = buffer i := by
    rw [Function.update_self, Function.update_self]
  have hold : ∀ f o, place i ≠ (f, o) → Function.update frames' (place i).1
      (Function.update (frames' (place i).1) (place i).2 (buffer i)) f o = frames' f o := by
    intro f o hne
    by_cases hf : f = (place i).1
    · subst hf
      have ho : o ≠ (place i).2 := fun ho => hne (by rw [ho])
      rw [Function.update_self, Function.update_of_ne ho]
    · rw [Function.update_of_ne hf]
  refine ⟨fun k hk hlast => ?_, fun f o hne => ?_⟩
  · by_cases hki : k = i
    · subst hki; exact hnew
    · rw [hold _ _ (hlast i (by omega) (by omega))]
      exact h.last k (by omega) fun l h1 h2 => hlast l h1 (by omega)
  · rw [hold f o (hne i (by omega))]
    exact h.others f o fun k hk => hne k (by omega)

/-- `memcpy` into such places. -/
theorem memcpyTo_ok {dest len : Nat} {place : Nat → Nat × Nat} {b : Nat → Byte} (hdest : dest ≠ 0) (hlen : len ≠ 0)
    (h : ∀ i < len, kernelFrame u ((dest + i) % 0x100000000) = .ok (place i).1 ∧
      (dest + i) % 0x100000000 % 4096 = (place i).2) :
    ∃ frames, memcpyTo u dest len b = .ok { u with frames := frames } ∧
      Stored place b len u.frames frames := by
  have hargs : dest ≠ 0 ∧ len ≠ 0 := ⟨hdest, hlen⟩
  unfold memcpyTo
  rw [assert_bind hargs]
  have hstep : ∀ i w, i < len → (∃ frames, w = { u with frames := frames } ∧ Stored place b i u.frames frames) →
      ∃ w', kernelStore w ((dest + i) % 0x100000000) (b i) = .ok w' ∧
        ∃ frames, w' = { u with frames := frames } ∧ Stored place b (i + 1) u.frames frames := by
    rintro i w hi ⟨frames, rfl, hst⟩
    -- the directories are those of `u`, so the kernel sees the same frames
    have hframe : kernelFrame { u with frames := frames } ((dest + i) % 0x100000000) = .ok (place i).1 := (h i hi).1
    unfold kernelStore
    rw [hframe, (h i hi).2, ok_bind]
    exact ⟨_, rfl, _, rfl, hst.snoc⟩
  obtain ⟨w, hw, frames, rfl, hst⟩ := forRange_zero_ok hstep
    ⟨u.frames, rfl, fun k hk => absurd hk (Nat.not_lt_zero k), fun _ _ _ => rfl⟩
  exact ⟨frames, hw, hst⟩

/-- The calls the functions are made for: the kernel directory is as `vmm_init` leaves it, `pdir` passes the checks of
`dump_directory` (and is a user directory, or one without user pages), the range lies in the address space, its page
count does not wrap, and there are as many free kernel pages in a row below the last page. -/
structure CopyCall (vm : Vm) (pdir : DirPtr) (ptr n : Word) : Prop where
  kernel : KernelTables vm
  agree : TablesAgree (vm.dirs pdir)
  noUser : pdir = .kernel → NoUserPages vm
  pos : n ≠ 0#32
  fits : ptr.toNat + n.toNat ≤ 0x100000000
  sum : 4095 + n.toNat + (ptr &&& 0xFFF#32).toNat < 0x100000000
  run : ∃ j, 1 ≤ j ∧ j + nBlocks ptr n < 0x100000 ∧ ∀ k < nBlocks ptr n, vm.entry .kernel (j + k) = 0#32

/-- The pages of a range are mapped at scratch pages `j`, …. -/
structure CopyMapped (vm : Vm) (pdir : DirPtr) (ptr n : Word) (j : Nat) (u : Vm) : Prop where
  first : 1 ≤ j
  below : j + nBlocks ptr n < 0x100000
  same : SameBut j (nBlocks ptr n) vm u
  mapped : MappedTo vm u pdir j (ptr.toNat / 4096) (nBlocks ptr n)
  free : ∀ k < nBlocks ptr n, vm.entry .kernel (j + k) = 0#32

theorem CopyCall.blocks (h : CopyCall vm pdir ptr n) :
    nBlocks ptr n ≠ 0 ∧ ptr.toNat / 4096 + nBlocks ptr n ≤ 0x100000 := by
  have hoff := offset_toNat ptr
  have hpos : 0 < n.toNat := Nat.pos_of_ne_zero fun hn => h.pos (BitVec.eq_of_toNat_eq hn)
  have hsum := h.sum
  have hfits := h.fits
  rw [nBlocks_eq, hoff, Nat.mod_eq_of_lt (by omega)]
  omega

/-- The mapping of a range: all of it, or nothing and the kernel directory is as it was. -/
theorem mapCopy_ok (h : CopyCall vm pdir ptr n) :
    ∃ r u, mapCopy vm pdir ptr n = .ok (r, u) ∧ u.frames = vm.frames ∧
      (UserRange vm pdir ptr.toNat n.toNat ∧ (∃ j, r = some (j * 4096) ∧ CopyMapped vm pdir ptr n j u) ∨
        ¬ UserRange vm pdir ptr.toNat n.toNat ∧ r = none ∧ Restored vm u) := by
  obtain ⟨hn0, hp⟩ := h.blocks
  obtain ⟨j, u, hfind, hj1, hj, hs, hf, hfree, hres⟩ := findVspace_scratch h.kernel hn0 h.run
  obtain ⟨done, u₁, hmap, hs₁, hf₁, hcase⟩ :=
    mapUserspaceToKernel_ok h.kernel h.agree h.noUser (by omega) hp hn0 hs hres
  have hj0 : ¬ j * 4096 = 0 := by omega
  have hrange : UserRange vm pdir ptr.toNat n.toNat ↔ _ := userRange_iff h.pos h.sum
  unfold mapCopy
  simp only [assert_bind hn0, hfind, ok_bind, if_neg hj0, page_toNat, hmap]
  rcases hcase with ⟨rfl, hm⟩ | ⟨rfl, k, hk, hbad⟩
  · refine ⟨_, u₁, rfl, hf₁.trans hf, Or.inl ⟨hrange.2 fun k hk => (hm k hk).1, j, rfl, ⟨hj1, hj, hs₁, hm, hfree⟩⟩⟩
  · obtain ⟨u₂, hun, hs₂, hf₂, hclear⟩ := unmapFromKernel_ok h.kernel hn0 (by omega) hs₁
    refine ⟨none, u₂, ?_, (hf₂.trans hf₁).trans hf, Or.inr ⟨fun hr => hbad (hrange.1 hr k hk), rfl,
      hs₂.restored hfree hclear⟩⟩
    simp only [hun, ok_bind, Bool.false_eq_true, if_false]
    rfl

/-- The mapping is taken down. -/
theorem CopyMapped.unmap (h : CopyMapped vm pdir ptr n j u) (hc : CopyCall vm pdir ptr n) (frames : Nat → Nat → Byte) :
    ∃ u', unmapFromKernel (j * 4096) (nBlocks ptr n) { u with frames := frames } = .ok u' ∧ Restored vm u' ∧
      u'.frames = frames := by
  have hj := h.below
  obtain ⟨u', hun, hs, hf, hclear⟩ :=
    unmapFromKernel_ok hc.kernel hc.blocks.1 (by omega) (h.same.setFrames frames)
  exact ⟨u', hun, hs.restored h.free hclear, hf⟩

/-- What the kernel sees at `kptr2` are the places of the user's bytes. -/
theorem CopyMapped.places (h : CopyMapped vm pdir ptr n j u) (hc : CopyCall vm pdir ptr n) :
    kptr2 (j * 4096) ptr ≠ 0 ∧ ∀ i < n.toNat,
      kernelFrame u ((kptr2 (j * 4096) ptr + i) % 0x100000000) = .ok (userPlace vm pdir (ptr.toNat + i)).1 ∧
        (kptr2 (j * 4096) ptr + i) % 0x100000000 % 4096 = (userPlace vm pdir (ptr.toNat + i)).2 := by
  have hoff := offset_toNat ptr
  have hj := h.below
  have hj1 := h.first
  have hk2 : kptr2 (j * 4096) ptr = j * 4096 + ptr.toNat % 4096 := by
    unfold kptr2
    rw [hoff, Nat.mod_eq_of_lt (by omega)]
  rw [hk2]
  refine ⟨by omega, fun i hi => ?_⟩
  have hover := (overlap_iff hc.pos hc.sum (m := (ptr.toNat + i) / 4096)).1 ⟨by omega, by omega⟩
  exact kernelFrame_mapped h.mapped (by omega) rfl hover.2

/-- **`copy_to_userspace`** to pages of the user stores the buffer. -/
theorem copyToUserspace_ok (h : CopyCall vm pdir ptr n) (huser : UserRange vm pdir ptr.toNat n.toNat)
    (buffer : Nat → Byte) : ∃ vm', copyToUserspace vm pdir ptr n buffer = .ok (n, vm') ∧ Restored vm vm' ∧
      Stored (fun i => userPlace vm pdir (ptr.toNat + i)) buffer n.toNat vm.frames vm'.frames := by
  have hpos : n.toNat ≠ 0 := fun hn => h.pos (BitVec.eq_of_toNat_eq hn)
  obtain ⟨r, u, hmap, hf, ⟨-, j, rfl, hm⟩ | ⟨hno, -, -⟩⟩ := mapCopy_ok h
  · obtain ⟨hsrc, hplaces⟩ := hm.places h
    obtain ⟨frames, hcpy, hst⟩ := memcpyTo_ok (b := buffer) hsrc hpos hplaces
    obtain ⟨vm', hun, hrest, hf'⟩ := hm.unmap h frames
    refine ⟨vm', ?_, hrest, ?_⟩
    · simp only [copyToUserspace, hmap, ok_bind, hcpy, hun]
      rfl
    · rw [hf', ← hf]
      exact hst
  · exact absurd huser hno

end Copies

/-- **Copies.** Both functions return `n` exactly when every page that overlaps the range is present, writable and the
user's. Then `copy_from_userspace` fills the first `n` bytes of the buffer with the user's bytes, and
`copy_to_userspace` stores the first `n` bytes of the buffer to the user's and changes no other byte; else they return
-1, and neither the buffer nor physical memory has changed. In all cases every directory is as before. -/
theorem userspace_copies (vm : Vm) (pdir : DirPtr) (ptr n : Word) (buffer : Nat → Byte) (h : CopyCall vm pdir ptr n) :
    (∃ r buffer' vm', copyFromUserspace vm pdir ptr n buffer = .ok (r, buffer', vm') ∧ Restored vm vm' ∧
      vm'.frames = vm.frames ∧ (r = n ↔ UserRange vm pdir ptr.toNat n.toNat) ∧
      (UserRange vm pdir ptr.toNat n.toNat → buffer' = fun i =>
        if i < n.toNat then
          vm.frames (userPlace vm pdir (ptr.toNat + i)).1 (userPlace vm pdir (ptr.toNat + i)).2
        else buffer i) ∧
      (¬ UserRange vm pdir ptr.toNat n.toNat → r = 0xFFFFFFFF#32 ∧ buffer' = buffer)) ∧
    ∃ r vm', copyToUserspace vm pdir ptr n buffer = .ok (r, vm') ∧ Restored vm vm' ∧
      (r = n ↔ UserRange vm pdir ptr.toNat n.toNat) ∧
      (UserRange vm pdir ptr.toNat n.toNat →
        Stored (fun i => userPlace vm pdir (ptr.toNat + i)) buffer n.toNat vm.frames vm'.frames) ∧
      (¬ UserRange vm pdir ptr.toNat n.toNat → r = 0xFFFFFFFF#32 ∧ vm'.frames = vm.frames) := by
  have hpos : n.toNat ≠ 0 := fun hn => h.pos (BitVec.eq_of_toNat_eq hn)
  -- -1 is no length of a range that fits
  have hne : (0xFFFFFFFF#32 : Word) ≠ n := by
    rintro rfl
    have hsum := h.sum
    simp only [BitVec.toNat_ofNat] at hsum
    omega
  obtain ⟨r, u, hmap, hf, ⟨hr, j, rfl, hm⟩ | ⟨hr, rfl, hrest⟩⟩ := mapCopy_ok h
  · obtain ⟨hsrc, hplaces⟩ := hm.places h
    constructor
    · have hcpy := memcpyFrom_ok (b := buffer) hsrc hpos hplaces
      rw [hf] at hcpy
      obtain ⟨vm', hun, hrest, hf'⟩ := hm.unmap h u.frames
      refine ⟨n, _, vm', ?_, hrest, hf'.trans hf, ⟨fun _ => hr, fun _ => rfl⟩, fun _ => rfl, fun hno => absurd hr hno⟩
      simp only [copyFromUserspace, hmap, ok_bind, hcpy]
      rw [show unmapFromKernel (j * 4096) (nBlocks ptr n) u = .ok vm' from hun]
      rfl
    · obtain ⟨vm', hrun, hrest, hst⟩ := copyToUserspace_ok h hr buffer
      exact ⟨n, vm', hrun, hrest, ⟨fun _ => hr, fun _ => rfl⟩, fun _ => hst, fun hno => absurd hr hno⟩
  · constructor
    · refine ⟨0xFFFFFFFF#32, buffer, u, ?_, hrest, hf, ⟨fun he => absurd he hne, fun hy => absurd hy hr⟩,
        fun hy => absurd hy hr, fun _ => ⟨rfl, rfl⟩⟩
      simp only [copyFromUserspace, hmap, ok_bind]
      rfl
    · refine ⟨0xFFFFFFFF#32, u, ?_, hrest, ⟨fun he => absurd he hne, fun hy => absurd hy hr⟩,
        fun hy => absurd hy hr, fun _ => ⟨rfl, hf⟩⟩
      simp only [copyToUserspace, hmap, ok_bind]
      rfl

/-- Four bytes across the end of a page of a process, and the same range of the kernel directory, which has no user
page. -/
theorem userspace_copies_two_pages :
    (∃ vm', copyToUserspace openVm (.user 0) 0xFFE#32 4#32 (fun i => BitVec.ofNat 8 i) = .ok (4#32, vm') ∧
      Restored openVm vm') ∧
    ∃ vm', copyToUserspace openVm .kernel 0xFFE#32 4#32 (fun i => BitVec.ofNat 8 i) = .ok (0xFFFFFFFF#32, vm') ∧
      vm'.frames = openVm.frames := by
  have hrun : ∃ j, 1 ≤ j ∧ j + nBlocks 0xFFE#32 4#32 < 0x100000 ∧
      ∀ k < nBlocks 0xFFE#32 4#32, openVm.entry .kernel (j + k) = 0#32 :=
    ⟨1, by decide, by decide, fun _ _ => openVm_kernel⟩
  have hagree : ∀ page, TablesAgree (fullDir page) := fun _ =>
    ⟨fun _ h => absurd (show (1#32 : Word) = 0#32 from h) (by decide), fun _ _ => rfl⟩
  have hcall : ∀ pdir, TablesAgree (openVm.dirs pdir) → CopyCall openVm pdir 0xFFE#32 4#32 := fun pdir ha =>
    ⟨openVm_tables, ha, fun _ _ => by rw [openVm_kernel]; decide, by decide, by decide, by decide, hrun⟩
  have huser : UserRange openVm (.user 0) 0xFFE 4 := fun m _ _ => by
    rw [openVm_user]
    exact ⟨by decide, by decide, by decide⟩
  have hkernel : ¬ UserRange openVm .kernel 0xFFE 4 := fun h => by
    have h0 := h 0 (by omega) (by omega)
    rw [openVm_kernel] at h0
    exact not_userEntry_zero h0
  constructor
  · obtain ⟨r, vm', hrun', hrest, hr, -⟩ := (userspace_copies _ _ _ _ _ (hcall (.user 0) (hagree 7#32))).2
    rw [hr.2 huser] at hrun'
    exact ⟨vm', hrun', hrest⟩
  · obtain ⟨r, vm', hrun', -, -, -, hno⟩ := (userspace_copies _ _ _ _ _ (hcall .kernel (hagree 0#32))).2
    obtain ⟨hr, hf⟩ := hno hkernel
    rw [hr] at hrun'
    exact ⟨vm', hrun', hf⟩

end Myunix.Syscall
