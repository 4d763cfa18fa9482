import Myunix.Process.Clone
import Myunix.Syscall.Rw
import Myunix.Vmm.MapPages

/-!
# Giving pages back (`syscall_munmap`)

`syscall_munmap` is there to unmap the pages of `[addr, addr + length)` and to free their frames (`Unmaps`). Its loop
starts at address 0, whatever `addr` is, and a length that is not a multiple of the page size is rounded to two pages.
So the call does its work only where the mapped pages of the first `munmapCount` pages of the process are those of the
range: `syscall_munmap_frees` is the exact condition.
-/

namespace Myunix.Syscall

open Lib Pmm Vmm Process

/-- The loop body of `syscall_munmap`, at address `i`. -/
def munmapPage (pdir : DirPtr) (i : Nat) (vm : Vm) : Kernel Vm := do
  let p ← getPage vm (getTable vm i pdir) i
  if p = 0#32 then return vm
  else if p &&& pageUser ≠ 0#32 then
    let pmm ← pmmFreeBlocks vm.pmm (p &&& ~~~ 0xFFF#32).toNat 1
    mapPage { vm with pmm := pmm } (getTable vm i pdir) i 0 0#32
  else throw .assertion

/-- The length after rounding; it is a multiple of the page size or below two pages, so the loop over it does not
wrap. -/
def munmapLength (length : Word) : Word :=
  if length &&& 0xFFF#32 ≠ 0#32 then (length &&& 0xFFF#32) + 0x1000#32 else length

/-- `syscall_munmap`, with the directory of the calling process. -/
def syscallMunmap (vm : Vm) (pdir : DirPtr) (addr length : Word) : Kernel (Word × Vm) :=
  if addr &&& 0xFFF#32 ≠ 0#32 then return (0xFFFFFFFF#32, vm)
  else if length = 0#32 then return (0xFFFFFFFF#32, vm)
  else do
    let vm ← forRange (fun k vm => munmapPage pdir (k * 4096) vm) 0 (((munmapLength length).toNat + 4095) / 4096) vm
    return (0#32, vm)

/-! ## What the loop does -/

/-- How many pages the loop visits. -/
def munmapCount (length : Word) : Nat := if length.toNat % 4096 = 0 then length.toNat / 4096 else 2

/-- The first `n` entries are cleared and the frames of those that were mapped are free. -/
structure Cleared (vm : Vm) (pdir : DirPtr) (n : Nat) (u : Vm) : Prop where
  entries : ∀ d m, u.entry d m = if d = pdir ∧ m < n then 0#32 else vm.entry d m
  tables : ∀ k, u.HasTable pdir k ↔ vm.HasTable pdir k
  virt : ∀ k, u.tableVirt ⟨pdir, k⟩ = vm.tableVirt ⟨pdir, k⟩
  size : u.pmm.size = vm.pmm.size
  blocks : ∀ b, u.pmm.used b = true ↔
    vm.pmm.used b = true ∧ ∀ m < n, vm.entry pdir m ≠ 0#32 → frameOf (vm.entry pdir m) ≠ b

/-- The loop gets past page `m`. -/
def Passes (vm : Vm) (pdir : DirPtr) (m : Nat) : Prop :=
  vm.HasTable pdir (m / 1024) ∧ (vm.entry pdir m ≠ 0#32 →
    vm.entry pdir m &&& pageUser ≠ 0#32 ∧ frameOf (vm.entry pdir m) < vm.pmm.size)

section Loop

variable {vm u u' : Vm} {pdir : DirPtr} {n m : Nat} {addr length : Word}

theorem pmmFreeBlocks_one {p : BlockMap} {x : Nat} : pmmFreeBlocks p x 1 = pmmUnsetBlock p (x / 4096) := by
  simp only [pmmFreeBlocks, forRange, Nat.add_zero]
  rw [assert_bind (by decide)]
  cases pmmUnsetBlock p (x / 4096) <;> rfl

theorem pmmUnsetBlock_eq {p : BlockMap} {b : Nat} (hb : b < p.size) : ∃ q, pmmUnsetBlock p b = .ok q := by
  unfold pmmUnsetBlock
  rw [assert_bind hb]
  exact ⟨_, rfl⟩

theorem frame_toNat (e : Word) : (e &&& ~~~ 0xFFF#32).toNat / 4096 = frameOf e := by
  unfold frameOf
  rw [page_toNat]
  omega

/-- A page that is not mapped. -/
theorem munmapPage_zero (ht : u.HasTable pdir (m / 1024)) (h0 : u.entry pdir m = 0#32) :
    munmapPage pdir (m * 4096) u = .ok u := by
  have hsome : getTable u (m * 4096) pdir = some ⟨pdir, m * 4096 / 0x400000⟩ :=
    getTable_eq_some.2 ⟨by rwa [show m * 4096 / 0x400000 = m / 1024 by omega], rfl⟩
  unfold munmapPage
  rw [hsome, getPage_table, ok_bind, Nat.mul_div_cancel m (by omega), if_pos h0]
  rfl

/-- A user page: its frame is freed and its entry cleared. -/
theorem munmapPage_user (hv : ∀ k, u.tableVirt ⟨pdir, k⟩ % 1024 = 0) (hp : Passes u pdir m) (h0 : u.entry pdir m ≠ 0#32) :
    ∃ q, pmmUnsetBlock u.pmm (frameOf (u.entry pdir m)) = .ok q ∧
      munmapPage pdir (m * 4096) u = .ok ({ u with pmm := q }.setEntry pdir m 0#32) := by
  have ht : u.HasTable pdir (m * 4096 / 0x400000) := by
    rw [show m * 4096 / 0x400000 = m / 1024 by omega]
    exact hp.1
  have hsome : getTable u (m * 4096) pdir = some ⟨pdir, m * 4096 / 0x400000⟩ := getTable_eq_some.2 ⟨ht, rfl⟩
  obtain ⟨hu, hb⟩ := hp.2 h0
  obtain ⟨q, hq⟩ := pmmUnsetBlock_eq hb
  have hmap : mapPage { u with pmm := q } (getTable { u with pmm := q } (m * 4096) pdir) (m * 4096) 0 0#32 = .ok _ :=
    mapPage_eq (by omega) ht (hv _)
  rw [Nat.mul_div_cancel m (by omega)] at hmap
  refine ⟨q, hq, ?_⟩
  unfold munmapPage
  rw [hsome, getPage_table, ok_bind, Nat.mul_div_cancel m (by omega), if_neg h0, if_pos hu, pmmFreeBlocks_one, frame_toNat,
    hq, ok_bind, ← hsome]
  exact hmap

/-- A round that returns. -/
theorem munmapPage_passes (h : munmapPage pdir (m * 4096) u = .ok u') : Passes u pdir m := by
  simp only [munmapPage, bind_eq_ok] at h
  obtain ⟨p, hp, h⟩ := h
  cases hg : getTable u (m * 4096) pdir with
  | none =>
    rw [hg] at hp
    simp [getPage] at hp
  | some t =>
    obtain ⟨ht, rfl⟩ := getTable_eq_some.1 hg
    rw [hg, getPage_table, Except.ok.injEq, Nat.mul_div_cancel m (by omega)] at hp
    subst hp
    refine ⟨by rwa [show m * 4096 / 0x400000 = m / 1024 by omega] at ht, fun h0 => ?_⟩
    rw [if_neg h0] at h
    split at h
    · next hu =>
      simp only [bind_eq_ok] at h
      obtain ⟨q, hq, -⟩ := h
      rw [pmmFreeBlocks_one, frame_toNat] at hq
      exact ⟨hu, (pmmUnsetBlock_ok hq).1⟩
    · cases h

theorem below_succ {d : DirPtr} {x : Nat} {w e : Word} (hx : ¬ (d = pdir ∧ x = m)) :
    (if d = pdir ∧ x < m then w else e) = if d = pdir ∧ x < m + 1 then w else e := by
  have hiff : d = pdir ∧ x < m ↔ d = pdir ∧ x < m + 1 := by
    apply and_congr_right
    intro hd
    have hne : x ≠ m := fun he => hx ⟨hd, he⟩
    omega
  simp only [hiff]

/-- One more page. -/
theorem Cleared.round (hc : Cleared vm pdir m u) (hv : ∀ k, vm.tableVirt ⟨pdir, k⟩ % 1024 = 0) (hp : Passes vm pdir m) :
    ∃ u', munmapPage pdir (m * 4096) u = .ok u' ∧ Cleared vm pdir (m + 1) u' := by
  have hent : u.entry pdir m = vm.entry pdir m := by rw [hc.entries, if_neg (by omega)]
  have ht : u.HasTable pdir (m / 1024) := (hc.tables _).2 hp.1
  by_cases h0 : vm.entry pdir m = 0#32
  · refine ⟨u, munmapPage_zero ht (hent.trans h0), fun d x => ?_, hc.tables, hc.virt, hc.size, fun b => ?_⟩
    · rw [hc.entries]
      by_cases hx : d = pdir ∧ x = m
      · rw [if_neg (by omega), if_pos ⟨hx.1, by omega⟩, hx.1, hx.2, h0]
      · rw [below_succ hx]
    · rw [hc.blocks]
      refine and_congr_right fun _ => ⟨fun h x hx hx0 => ?_, fun h x hx => h x (by omega)⟩
      have hne : x ≠ m := fun he => hx0 (he ▸ h0)
      exact h x (by omega) hx0
  · have hp' : Passes u pdir m := by
      unfold Passes
      rw [hent, hc.size]
      exact ⟨ht, hp.2⟩
    obtain ⟨q, hq, hrun⟩ := munmapPage_user (fun k => by rw [hc.virt]; exact hv k) hp' (by rwa [hent])
    obtain ⟨-, hsize, hused⟩ := pmmUnsetBlock_ok hq
    have ht' : ({ u with pmm := q } : Vm).HasTable pdir (m / 1024) := ht
    refine ⟨_, hrun, fun d x => ?_, fun k => ?_, fun k => ?_, hsize.trans hc.size, fun b => ?_⟩
    · rw [entry_setEntry ht']
      by_cases hx : d = pdir ∧ x = m
      · rw [if_pos hx, if_pos ⟨hx.1, by omega⟩]
      · rw [if_neg hx]
        exact (hc.entries d x).trans (below_succ hx)
    · rw [hasTable_setEntry]
      exact hc.tables k
    · rw [tableVirt_setEntry]
      exact hc.virt k
    · rw [setEntry_pmm, hused, Bool.and_eq_true, hc.blocks, and_assoc, hent]
      refine and_congr_right fun _ => ⟨?_, fun h => ⟨fun x hx => h x (by omega), ?_⟩⟩
      · rintro ⟨h, hb⟩ x hx hx0
        rcases Nat.lt_or_eq_of_le (Nat.le_of_lt_succ hx) with hlt | rfl
        · exact h x hlt hx0
        · intro he
          simp [he] at hb
      · have := h m (by omega) h0
        simp [Ne.symm this]

theorem Cleared.refl (vm : Vm) (pdir : DirPtr) : Cleared vm pdir 0 vm :=
  ⟨fun _ _ => (if_neg (by omega)).symm, fun _ => Iff.rfl, fun _ => rfl, rfl, fun b => by simp⟩

/-- The loop returns when it gets past each page. -/
theorem munmap_loop (hv : ∀ k, vm.tableVirt ⟨pdir, k⟩ % 1024 = 0) (hp : ∀ m < n, Passes vm pdir m) :
    ∃ u, forRange (fun k vm => munmapPage pdir (k * 4096) vm) 0 n vm = .ok u ∧ Cleared vm pdir n u :=
  forRange_zero_ok (P := fun k u => Cleared vm pdir k u) (fun k _ hk hc => hc.round hv (hp k hk)) (Cleared.refl vm pdir)

/-- A loop that returns got past each page. -/
theorem munmap_loop_passes (hv : ∀ k, vm.tableVirt ⟨pdir, k⟩ % 1024 = 0)
    (h : forRange (fun k vm => munmapPage pdir (k * 4096) vm) 0 n vm = .ok u) : ∀ m < n, Passes vm pdir m := by
  have hinv := forRange_inv (P := fun k u => Cleared vm pdir k u ∧ ∀ m < k, Passes vm pdir m) ?_ h
    ⟨Cleared.refl vm pdir, fun m hm => by omega⟩
  · rw [Nat.zero_add] at hinv
    exact hinv.2
  · rintro k s t - - ⟨hc, hp⟩ hstep
    have hk : Passes vm pdir k := by
      have hpass := munmapPage_passes hstep
      unfold Passes at hpass
      rw [hc.tables, hc.entries, if_neg (by omega), hc.size] at hpass
      exact hpass
    obtain ⟨u', hu', hc'⟩ := hc.round hv hk
    rw [hstep, Except.ok.injEq] at hu'
    refine ⟨hu' ▸ hc', fun m hm => ?_⟩
    rcases Nat.lt_or_eq_of_le (Nat.le_of_lt_succ hm) with hlt | rfl
    · exact hp m hlt
    · exact hk

theorem munmapCount_eq : ((munmapLength length).toNat + 4095) / 4096 = munmapCount length := by
  have hoff := offset_toNat length
  unfold munmapLength munmapCount
  split
  · next h =>
    have hne : (length &&& 0xFFF#32).toNat ≠ 0 := fun h0 => h (BitVec.eq_of_toNat_eq h0)
    rw [BitVec.toNat_add, hoff, if_neg (by omega)]
    simp only [BitVec.reduceToNat]
    omega
  · next h =>
    have h0 : (length &&& 0xFFF#32).toNat = 0 := by rw [not_not.1 h]; rfl
    rw [if_pos (by omega)]
    omega

/-- A call with an aligned address and a length runs the loop. -/
theorem syscallMunmap_eq (ha : addr.toNat % 4096 = 0) (hl : length ≠ 0#32) :
    syscallMunmap vm pdir addr length =
      forRange (fun k vm => munmapPage pdir (k * 4096) vm) 0 (munmapCount length) vm >>= fun u => .ok (0#32, u) := by
  have hoff : addr &&& 0xFFF#32 = 0#32 := by
    apply BitVec.eq_of_toNat_eq
    rw [offset_toNat, ha]
    rfl
  unfold syscallMunmap
  rw [if_neg (not_not.2 hoff), if_neg hl, munmapCount_eq]
  rfl

end Loop

/-! ## The range -/

/-- The mapped pages of the range are unmapped and their frames are freed; no other entry and no other block changes. -/
structure Unmaps (vm : Vm) (pdir : DirPtr) (addr length : Nat) (vm' : Vm) : Prop where
  unmapped : ∀ m, Overlaps addr (addr + length) m → vm'.entry pdir m = 0#32
  others : ∀ d m, ¬ (d = pdir ∧ Overlaps addr (addr + length) m) → vm'.entry d m = vm.entry d m
  blocks : ∀ b, vm'.pmm.used b = true ↔ vm.pmm.used b = true ∧
    ∀ m, Overlaps addr (addr + length) m → vm.entry pdir m ≠ 0#32 → frameOf (vm.entry pdir m) ≠ b

/-- The pages that the loop visits have tables, the mapped ones among them are those of the range, and their frames are
in the block map. -/
structure FitsLoop (vm : Vm) (pdir : DirPtr) (addr length : Word) : Prop where
  tables : ∀ m < munmapCount length, vm.HasTable pdir (m / 1024)
  pages : ∀ m, vm.entry pdir m ≠ 0#32 →
    (m < munmapCount length ↔ Overlaps addr.toNat (addr.toNat + length.toNat) m)
  blocks : ∀ m, Overlaps addr.toNat (addr.toNat + length.toNat) m → vm.entry pdir m ≠ 0#32 →
    frameOf (vm.entry pdir m) < vm.pmm.size

section Range

variable {vm vm' : Vm} {pdir : DirPtr} {addr length : Word}

/-- What a call that keeps its promise needs. -/
theorem fitsLoop_of_unmaps (ha : addr.toNat % 4096 = 0) (hl : length ≠ 0#32)
    (hv : ∀ k, vm.tableVirt ⟨pdir, k⟩ % 1024 = 0) (h : syscallMunmap vm pdir addr length = .ok (0#32, vm'))
    (hu : Unmaps vm pdir addr.toNat length.toNat vm') : FitsLoop vm pdir addr length := by
  rw [syscallMunmap_eq ha hl] at h
  simp only [bind_eq_ok, Except.ok.injEq, Prod.mk.injEq, true_and] at h
  obtain ⟨u, hloop, rfl⟩ := h
  have hpass := munmap_loop_passes hv hloop
  obtain ⟨u', hloop', hc⟩ := munmap_loop hv hpass
  rw [hloop, Except.ok.injEq] at hloop'
  subst hloop'
  have hpages : ∀ m, vm.entry pdir m ≠ 0#32 →
      (m < munmapCount length ↔ Overlaps addr.toNat (addr.toNat + length.toNat) m) := by
    intro m hm
    constructor
    · intro hlt
      by_contra hno
      have hsame := hu.others pdir m (fun ho => hno ho.2)
      rw [hc.entries, if_pos ⟨rfl, hlt⟩] at hsame
      exact hm hsame.symm
    · intro ho
      by_contra hno
      have hzero := hu.unmapped m ho
      rw [hc.entries, if_neg (fun h => hno h.2)] at hzero
      exact hm hzero
  exact ⟨fun m hm => (hpass m hm).1, hpages, fun m ho hm => ((hpass m ((hpages m hm).2 ho)).2 hm).2⟩

/-- A call whose loop fits the range keeps its promise. -/
theorem unmaps_of_fitsLoop (ha : addr.toNat % 4096 = 0) (hl : length ≠ 0#32)
    (hv : ∀ k, vm.tableVirt ⟨pdir, k⟩ % 1024 = 0)
    (huser : ∀ m, Overlaps addr.toNat (addr.toNat + length.toNat) m → vm.entry pdir m ≠ 0#32 →
      vm.entry pdir m &&& pageUser ≠ 0#32) (hf : FitsLoop vm pdir addr length) :
    ∃ vm', syscallMunmap vm pdir addr length = .ok (0#32, vm') ∧ Unmaps vm pdir addr.toNat length.toNat vm' := by
  have hpass : ∀ m < munmapCount length, Passes vm pdir m := by
    intro m hm
    refine ⟨hf.tables m hm, fun h0 => ?_⟩
    have ho := (hf.pages m h0).1 hm
    exact ⟨huser m ho h0, hf.blocks m ho h0⟩
  obtain ⟨u, hloop, hc⟩ := munmap_loop hv hpass
  refine ⟨u, by rw [syscallMunmap_eq ha hl, hloop, ok_bind], fun m ho => ?_, fun d m hno => ?_, fun b => ?_⟩
  · rw [hc.entries]
    split
    · rfl
    · next hout =>
      by_contra h0
      exact hout ⟨rfl, (hf.pages m h0).2 ho⟩
  · rw [hc.entries]
    split
    · next hin =>
      obtain ⟨rfl, hlt⟩ := hin
      by_contra h0
      exact hno ⟨rfl, (hf.pages m (Ne.symm h0)).1 hlt⟩
    · rfl
  · rw [hc.blocks]
    refine and_congr_right fun _ => ⟨fun h m ho h0 => ?_, fun h m hm h0 => ?_⟩
    · exact h m ((hf.pages m h0).2 ho) h0
    · exact h m ((hf.pages m h0).1 hm) h0

end Range

/-- **Giving pages back.** For an aligned address and a length whose mapped pages are user pages, the call returns 0 with
exactly the pages of the range unmapped and their frames free, if and only if the loop fits the range. The tables of a
process lie in pages of the kernel's address space. -/
theorem syscall_munmap_frees (vm : Vm) (a : Nat) (addr length : Word) (ha : addr.toNat % 4096 = 0) (hl : length ≠ 0#32)
    (hv : ∀ k, vm.tableVirt ⟨.user a, k⟩ % 1024 = 0)
    (huser : ∀ m, Overlaps addr.toNat (addr.toNat + length.toNat) m → vm.entry (.user a) m ≠ 0#32 →
      vm.entry (.user a) m &&& pageUser ≠ 0#32) :
    (∃ vm', syscallMunmap vm (.user a) addr length = .ok (0#32, vm') ∧
      Unmaps vm (.user a) addr.toNat length.toNat vm') ↔ FitsLoop vm (.user a) addr length := by
  constructor
  · rintro ⟨vm', h, hu⟩
    exact fitsLoop_of_unmaps ha hl hv h hu
  · exact unmaps_of_fitsLoop ha hl hv huser

theorem mappedVm_size : 96 ≤ 0xFFFFF := by omega

/-- The machine of `openVm` with 96 blocks, all in use. -/
def mappedVm : Vm := { openVm with pmm := ⟨fun _ => 0xFFFFFFFF#32, 96, mappedVm_size⟩ }

theorem mappedVm_user {m : Nat} : mappedVm.entry (.user 0) m = 7#32 := rfl

/-- The first page of a process whose every page is mapped. -/
theorem syscall_munmap_first_page : ∃ vm', syscallMunmap mappedVm (.user 0) 0#32 0x1000#32 = .ok (0#32, vm') ∧
    Unmaps mappedVm (.user 0) 0 0x1000 vm' := by
  have hfits : FitsLoop mappedVm (.user 0) 0#32 0x1000#32 := by
    have hcount : munmapCount 0x1000#32 = 1 := by decide
    refine ⟨fun m _ => ⟨_, rfl⟩, fun m _ => ?_, fun m _ _ => ?_⟩
    · rw [hcount]
      simp only [Overlaps, BitVec.reduceToNat]
      omega
    · rw [mappedVm_user]
      decide
  have huser : ∀ m, Overlaps 0 (0 + 0x1000) m → mappedVm.entry (.user 0) m ≠ 0#32 →
      mappedVm.entry (.user 0) m &&& pageUser ≠ 0#32 := by
    intro m _ _
    rw [mappedVm_user]
    decide
  exact (syscall_munmap_frees mappedVm 0 0#32 0x1000#32 (by decide) (by decide) (fun _ => rfl) huser).2 hfits

/-- The second page of that process: the call unmaps the first page instead. -/
theorem syscall_munmap_wrong_page : ¬ ∃ vm', syscallMunmap mappedVm (.user 0) 0x1000#32 0x1000#32 = .ok (0#32, vm') ∧
    Unmaps mappedVm (.user 0) 0x1000 0x1000 vm' := by
  rintro ⟨vm', h, hu⟩
  have hfits := fitsLoop_of_unmaps (by decide) (by decide) (fun _ => rfl) h hu
  have hpage := (hfits.pages 0 (by rw [mappedVm_user]; decide)).1 (by decide)
  simp only [Overlaps, BitVec.reduceToNat] at hpage
  omega

end Myunix.Syscall
