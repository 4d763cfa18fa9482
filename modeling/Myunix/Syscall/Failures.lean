import Myunix.Syscall.CopyString
import Myunix.Vmm.Heap

/-!
# Calls that fail (`syscall.c`)

A call on a user buffer fails when a page of the buffer is not the user's, or when there is no address space to map it
at. Then it should return -1 and leave no trace.

The scratch pages of a call are a run of free pages modulo the size of the address space (`slot`), since `find_vspace`
also returns runs that go on at page 0; these it does not reserve.

* `mapUserPages_slots` and `unmapMapped_slots` say what the mapper and its cleanup do to the slots.
* `rw_failure_restores`: after a bad page, `syscall_read` and `syscall_write` leave the slots behind the bad one reserved.
* `no_vspace_failure`: the value for "no address space" is not the one that the callers test for.
-/

namespace Myunix.Syscall

open Lib Vmm Process

/-! ## Slots -/

/-- Page `k` of a run that starts at page `j`, modulo the number of pages. -/
def slot (j k : Nat) : Nat := (j + k) % 0x100000

/-- Only kernel entries and physical memory differ. -/
abbrev KernelOnly (vm u : Vm) : Prop := SameBut 0 0x100000 vm u

/-- The mapper has stopped at page `t` of `n`: the pages below are mapped at their slots. Either these are all pages, or
page `t` is not the user's and its slot is clear. -/
structure MapsUpTo (vm u : Vm) (a j p n t : Nat) (done : Bool) (u' : Vm) : Prop where
  same : KernelOnly vm u'
  frames : u'.frames = u.frames
  le : t ≤ n
  good : ∀ k < t, UserEntry (vm.entry (.user a) (slot p k))
  stop : done = true ∧ t = n ∨
    done = false ∧ t < n ∧ ¬ UserEntry (vm.entry (.user a) (slot p t)) ∧ u'.entry .kernel (slot j t) = 0#32
  mapped : ∀ k < t, u'.entry .kernel (slot j k) = vm.entry (.user a) (slot p k) ||| (pagePresent ||| pageReadwrite)
  others : ∀ m, (∀ k < n, k ≤ t → m ≠ slot j k) → u'.entry .kernel m = u.entry .kernel m

section Slots

variable {vm u w : Vm} {a j p n i k t : Nat}

theorem slot_lt : slot j k < 0x100000 := Nat.mod_lt _ (by omega)

theorem slot_addr : (j * 4096 + i * 4096) % 0x100000000 = slot j i * 4096 := by
  unfold slot
  omega

theorem slot_addr' : (i * 4096 + j * 4096) % 0x100000000 = slot j i * 4096 := by
  unfold slot
  omega

theorem slot_inj {l : Nat} (hk : k < 0x100000) (hl : l < 0x100000) (h : slot j k = slot j l) : k = l := by
  unfold slot at h
  omega

theorem slot_of_below (h : j + k < 0x100000) : slot j k = j + k := Nat.mod_eq_of_lt h

/-- The loop of the mapper from round `i` on. -/
theorem mapUserPages_slots (hk : KernelTables vm) (hn : n ≤ 0x100000) {rest : Nat} (hrest : i + rest = n)
    (hs : KernelOnly vm w) (hf : w.frames = u.frames) (hgood : ∀ k < i, UserEntry (vm.entry (.user a) (slot p k)))
    (hmapped : ∀ k < i, w.entry .kernel (slot j k) = vm.entry (.user a) (slot p k) ||| (pagePresent ||| pageReadwrite))
    (hothers : ∀ m, (∀ k < i, m ≠ slot j k) → w.entry .kernel m = u.entry .kernel m) :
    ∃ t done u', mapUserPages (.user a) (p * 4096) (j * 4096) rest i w = .ok (done, u') ∧
      MapsUpTo vm u a j p n t done u' := by
  induction rest generalizing i w with
  | zero =>
    refine ⟨i, true, w, rfl, hs, hf, by omega, hgood, Or.inl ⟨rfl, hrest⟩, hmapped, fun m hm => ?_⟩
    exact hothers m fun k hk => hm k (by omega) (by omega)
  | succ rest ih =>
    have hs' : KernelOnly vm (w.setEntry .kernel (slot j i) 0#32) :=
      hs.setEntry hk (Nat.zero_le _) (by rw [Nat.zero_add]; exact slot_lt) (by omega)
    have hpage : slot p i * 4096 / 4096 = slot p i := page_addr _
    obtain ⟨u₁, hs₁, hf₁, hkeep, ⟨hue, hnew, hgo⟩ | ⟨hbad, hzero, hstop⟩⟩ :=
      mapUserPages_round hk (by omega) hs (Nat.zero_le _) (by rw [Nat.zero_add]; exact slot_lt) slot_addr slot_addr hpage
        (hs'.entry_user (a := a)) rest
    · have hgood₁ : ∀ k < i + 1, UserEntry (vm.entry (.user a) (slot p k)) := by
        intro k hki
        rcases Nat.lt_or_eq_of_le (Nat.le_of_lt_succ hki) with hlt | rfl
        · exact hgood k hlt
        · exact hue
      have hmapped₁ : ∀ k < i + 1, u₁.entry .kernel (slot j k) =
          vm.entry (.user a) (slot p k) ||| (pagePresent ||| pageReadwrite) := by
        intro k hki
        rcases Nat.lt_or_eq_of_le (Nat.le_of_lt_succ hki) with hlt | rfl
        · have hne : slot j k ≠ slot j i := fun h => by
            have := slot_inj (by omega) (by omega) h
            omega
          rw [hkeep _ hne]
          exact hmapped k hlt
        · exact hnew
      have hothers₁ : ∀ m, (∀ k < i + 1, m ≠ slot j k) → u₁.entry .kernel m = u.entry .kernel m := by
        intro m hm
        rw [hkeep m (hm i (by omega))]
        exact hothers m fun k hk => hm k (by omega)
      obtain ⟨t, done, u', hrun, hres⟩ := ih (by omega) hs₁ (hf₁.trans hf) hgood₁ hmapped₁ hothers₁
      exact ⟨t, done, u', hgo.trans hrun, hres⟩
    · refine ⟨i, false, u₁, hstop, hs₁, hf₁.trans hf, by omega, hgood, Or.inr ⟨rfl, by omega, hbad, hzero⟩,
        fun k hki => ?_, fun m hm => ?_⟩
      · have hne : slot j k ≠ slot j i := fun h => by
          have := slot_inj (by omega) (by omega) h
          omega
        rw [hkeep _ hne]
        exact hmapped k hki
      · rw [hkeep m (hm i (by omega) (Nat.le_refl i))]
        exact hothers m fun k hk => hm k (by omega) (by omega)

/-- The cleanup clears the slots up to the first one that is clear. -/
theorem unmapMapped_slots (hk : KernelTables vm) (hn : n ≤ 0x100000) {rest : Nat} (hrest : i + rest = n) (hit : i ≤ t)
    (ht : t < n) (hs : KernelOnly vm w) (hset : ∀ k, i ≤ k → k < t → w.entry .kernel (slot j k) ≠ 0#32)
    (hzero : w.entry .kernel (slot j t) = 0#32) :
    ∃ u', unmapMapped (j * 4096) rest i w = .ok u' ∧ KernelOnly vm u' ∧ u'.frames = w.frames ∧
      (∀ k, i ≤ k → k < t → u'.entry .kernel (slot j k) = 0#32) ∧
      ∀ m, (∀ k, i ≤ k → k < t → m ≠ slot j k) → u'.entry .kernel m = w.entry .kernel m := by
  induction rest generalizing i w with
  | zero => omega
  | succ rest ih =>
    have htab := (hs.kernelTables hk (slot j i * 4096 / 0x400000) (by have := @slot_lt j i; omega)).1
    have hpage : slot j i * 4096 / 4096 = slot j i := page_addr _
    simp only [unmapMapped, slot_addr', getTable_eq_some.2 ⟨htab, rfl⟩, getPage_table, hpage, ok_bind]
    rcases Nat.lt_or_eq_of_le hit with hlt | rfl
    · rw [if_neg (hset i (Nat.le_refl i) hlt), ← getTable_eq_some.2 ⟨htab, rfl⟩,
        hs.mapPage_eq hk (by rw [Nat.zero_add]; exact slot_lt) (by omega), ok_bind]
      have hs₁ : KernelOnly vm (w.setEntry .kernel (slot j i) (BitVec.ofNat 32 0 ||| 0#32)) :=
        hs.setEntry hk (Nat.zero_le _) (by rw [Nat.zero_add]; exact slot_lt) (by omega)
      have hent : ∀ m, (w.setEntry .kernel (slot j i) (BitVec.ofNat 32 0 ||| 0#32)).entry .kernel m =
          if m = slot j i then 0#32 else w.entry .kernel m := by
        intro m
        rw [hs.setEntry_entry hk (by rw [Nat.zero_add]; exact slot_lt) (by omega)]
        rfl
      have hne : ∀ k, i + 1 ≤ k → k ≤ t → slot j k ≠ slot j i := by
        intro k hk1 hk2 heq
        have := slot_inj (by omega) (by omega) heq
        omega
      obtain ⟨u', hrun, hs', hf', hclear, hkeep⟩ := ih (i := i + 1) (by omega) (by omega) hs₁
        (fun k hk1 hk2 => by rw [hent, if_neg (hne k hk1 (by omega))]; exact hset k (by omega) hk2)
        (by rw [hent, if_neg (hne t (by omega) (by omega))]; exact hzero)
      refine ⟨u', hrun, hs', hf', fun k hk1 hk2 => ?_, fun m hm => ?_⟩
      · rcases Nat.lt_or_eq_of_le hk1 with hlt' | rfl
        · exact hclear k (by omega) hk2
        · rw [hkeep _ fun k hk1 hk2 => (hne k hk1 (by omega)).symm, hent, if_pos rfl]
      · rw [hkeep m fun k hk1 hk2 => hm k (by omega) hk2, hent, if_neg (hm i (Nat.le_refl i) hlt)]
    · rw [if_pos hzero]
      exact ⟨w, rfl, hs, rfl, fun k hk1 hk2 => by omega, fun _ _ => rfl⟩

/-- `unmap_from_kernel` clears all slots. -/
theorem unmapFromKernel_slots (hk : KernelTables vm) (hn0 : n ≠ 0) (hn : n ≤ 0x100000) (hs : KernelOnly vm w) :
    ∃ u', unmapFromKernel (j * 4096) n w = .ok u' ∧ KernelOnly vm u' ∧ u'.frames = w.frames ∧
      (∀ k < n, u'.entry .kernel (slot j k) = 0#32) ∧
      ∀ m, (∀ k < n, m ≠ slot j k) → u'.entry .kernel m = w.entry .kernel m := by
  unfold unmapFromKernel
  rw [assert_bind hn0]
  refine forRange_zero_ok (P := fun i u' => KernelOnly vm u' ∧ u'.frames = w.frames ∧
    (∀ k < i, u'.entry .kernel (slot j k) = 0#32) ∧
    ∀ m, (∀ k < i, m ≠ slot j k) → u'.entry .kernel m = w.entry .kernel m) ?_
    ⟨hs, rfl, fun k hk => absurd hk (Nat.not_lt_zero k), fun _ _ => rfl⟩
  rintro i v hi ⟨hv, hf, hclear, hkeep⟩
  have hlt : slot j i < 0 + 0x100000 := by rw [Nat.zero_add]; exact slot_lt
  simp only [slot_addr']
  refine ⟨_, hv.mapPage_eq hk hlt (by omega), hv.setEntry hk (Nat.zero_le _) hlt (by omega), hf, fun k hki => ?_,
    fun m hm => ?_⟩
  · rw [hv.setEntry_entry hk hlt (by omega)]
    by_cases hik : k = i
    · rw [hik, if_pos rfl]
      rfl
    · rw [if_neg fun h => hik (slot_inj (by omega) (by omega) h)]
      exact hclear k (by omega)
  · rw [hv.setEntry_entry hk hlt (by omega), if_neg (hm i (by omega))]
    exact hkeep m fun k hk => hm k (by omega)

theorem nBlocks_lt (ptr length : Word) : nBlocks ptr length < 0x100000 := by
  unfold nBlocks
  have := (4095#32 + length + (ptr &&& 0xFFF#32)).isLt
  omega

/-- The mapper has returned: it got to the first page `t` that is not the user's, and has cleared the slots up to it, or
all `n` pages are the user's. -/
structure MapReturns (vm u : Vm) (a j p n t : Nat) (done : Bool) (u' : Vm) : Prop where
  same : KernelOnly vm u'
  frames : u'.frames = u.frames
  good : ∀ k < t, UserEntry (vm.entry (.user a) (slot p k))
  stop : done = true ∧ t = n ∨ done = false ∧ t < n ∧ ¬ UserEntry (vm.entry (.user a) (slot p t))
  cleared : done = false → ∀ k ≤ t, u'.entry .kernel (slot j k) = 0#32
  others : ∀ m, (∀ k < n, k ≤ t → m ≠ slot j k) → u'.entry .kernel m = u.entry .kernel m

/-- The mapper behind its loop: it returns unless `dump_directory` stops. -/
theorem MapsUpTo.returns (hk : KernelTables vm) (hn0 : n ≠ 0) (hn : n ≤ 0x100000) {done : Bool}
    (hloop : mapUserPages (.user a) (p * 4096) (j * 4096) n 0 u = .ok (done, w)) (h : MapsUpTo vm u a j p n t done w) :
    ∃ u', MapReturns vm u a j p n t done u' ∧
      mapUserspaceToKernel u (.user a) (p * 4096) (j * 4096) n =
        if done then .ok (true, u') else dumpDirectory w (.user a) >>= fun _ => .ok (false, u') := by
  have hargs : p * 4096 % 4096 = 0 ∧ j * 4096 % 4096 = 0 ∧ n ≠ 0 := ⟨by omega, by omega, hn0⟩
  unfold mapUserspaceToKernel
  rw [assert_bind hargs, hloop, ok_bind]
  rcases h.stop with ⟨rfl, ht⟩ | ⟨rfl, ht, hbad, hzero⟩
  · exact ⟨w, ⟨h.same, h.frames, h.good, Or.inl ⟨rfl, ht⟩, fun h => (by cases h), h.others⟩, rfl⟩
  · have hset : ∀ k, 0 ≤ k → k < t → w.entry .kernel (slot j k) ≠ 0#32 := by
      intro k _ hkt
      rw [h.mapped k hkt]
      exact entry_ne_zero (by decide)
    obtain ⟨u', hun, hs', hf', hclear, hkeep⟩ :=
      unmapMapped_slots hk hn (Nat.zero_add n) (Nat.zero_le t) ht h.same hset hzero
    have hnot : ∀ k, 0 ≤ k → k < t → slot j t ≠ slot j k := by
      intro k _ hkt heq
      have := slot_inj (by omega) (by omega) heq
      omega
    refine ⟨u', ⟨hs', hf'.trans h.frames, h.good, Or.inr ⟨rfl, ht, hbad⟩, fun _ k hkt => ?_, fun m hm => ?_⟩, ?_⟩
    · rcases Nat.lt_or_eq_of_le hkt with hlt | rfl
      · exact hclear k (Nat.zero_le k) hlt
      · rw [hkeep _ hnot]
        exact hzero
    · rw [hkeep m fun k _ hkt => hm k (by omega) (by omega)]
      exact h.others m hm
    · simp only [Bool.false_eq_true, if_false, hun, ok_bind]
      rfl

/-- **`map_userspace_to_kernel` at slots**, when it returns. -/
theorem mapUserspaceToKernel_returns (hk : KernelTables vm) (hn0 : n ≠ 0) (hn : n ≤ 0x100000) (hs : KernelOnly vm u)
    {done : Bool} {u' : Vm} (h : mapUserspaceToKernel u (.user a) (p * 4096) (j * 4096) n = .ok (done, u')) :
    ∃ t, MapReturns vm u a j p n t done u' := by
  obtain ⟨t, done', w, hloop, hmaps⟩ := mapUserPages_slots (a := a) (j := j) (p := p) hk hn (Nat.zero_add n) hs rfl
    (fun k hk => absurd hk (Nat.not_lt_zero k)) (fun k hk => absurd hk (Nat.not_lt_zero k)) fun _ _ => rfl
  obtain ⟨u₁, hret, heq⟩ := hmaps.returns hk hn0 hn hloop
  rw [h] at heq
  cases done' with
  | true =>
    cases heq
    exact ⟨t, hret⟩
  | false =>
    rw [if_neg (by decide)] at heq
    obtain ⟨-, -, heq⟩ := bind_eq_ok.1 heq.symm
    cases heq
    exact ⟨t, hret⟩

/-- It returns when the arrays of tables agree. -/
theorem mapUserspaceToKernel_total (hk : KernelTables vm) (hd : TablesAgree (vm.dirs (.user a))) (hn0 : n ≠ 0)
    (hn : n ≤ 0x100000) (hs : KernelOnly vm u) :
    ∃ done u', mapUserspaceToKernel u (.user a) (p * 4096) (j * 4096) n = .ok (done, u') := by
  obtain ⟨t, done, w, hloop, hmaps⟩ := mapUserPages_slots (a := a) (j := j) (p := p) hk hn (Nat.zero_add n) hs rfl
    (fun k hk => absurd hk (Nat.not_lt_zero k)) (fun k hk => absurd hk (Nat.not_lt_zero k)) fun _ _ => rfl
  obtain ⟨u₁, -, heq⟩ := hmaps.returns hk hn0 hn hloop
  rw [dumpDirectory_ok (hmaps.same.tablesAgree hd), ok_bind] at heq
  cases done with
  | true => exact ⟨true, u₁, heq⟩
  | false => exact ⟨false, u₁, heq⟩

end Slots

/-! ## Bad pages -/

/-- Page `b` of the buffer is the first one that is not present, writable and the user's. -/
structure BadPage (vm : Vm) (a : Nat) (ptr length : Word) (b : Nat) : Prop where
  lt : b < nBlocks ptr length
  good : ∀ k < b, UserEntry (vm.entry (.user a) (slot (ptr.toNat / 4096) k))
  bad : ¬ UserEntry (vm.entry (.user a) (slot (ptr.toNat / 4096) b))

/-- The call gets as far as mapping its buffer: the descriptor is open, and the length is not 0. -/
structure ReachesBuffer (s : Sys) (fdNum length : Word) (table : FdTable) (fd : FdPtr) (node : NodePtr) : Prop where
  has_table : s.fdTable = some table
  is_open : fdTableGet table fdNum.toNat = .ok (some fd)
  has_node : (s.fds.fds fd).node = some node
  nonempty : length ≠ 0#32

/-- `n` free pages of the kernel directory in a row, from page 1 on, that end below the last page. -/
def RunBelow (vm : Vm) (n : Nat) : Prop :=
  ∃ i, 1 ≤ i ∧ i + n < 0x100000 ∧ ∀ k < n, vm.entry .kernel (i + k) = 0#32

section BadPages

variable {vm u u' : Vm} {a j p n b t : Nat} {ptr length : Word} {done : Bool}

/-- The mapper stops at the first bad page. -/
theorem MapReturns.at_bad (h : MapReturns vm u a j (ptr.toNat / 4096) (nBlocks ptr length) t done u')
    (hb : BadPage vm a ptr length b) : done = false ∧ t = b := by
  have hlt := hb.lt
  rcases h.stop with ⟨-, rfl⟩ | ⟨hdone, ht, hbad⟩
  · exact absurd (h.good b hlt) hb.bad
  · refine ⟨hdone, ?_⟩
    rcases Nat.lt_trichotomy t b with h1 | h1 | h1
    · exact absurd (hb.good t h1) hbad
    · exact h1
    · exact absurd (h.good b h1) hb.bad

theorem SameBut.kernelOnly (h : SameBut j n vm u) (hn : j + n ≤ 0x100000) : KernelOnly vm u :=
  ⟨h.pmm, h.nextDir, h.user, h.tables, h.virt, h.physical, fun m hm => h.entry m (by omega)⟩

theorem restored_of_entries (h : KernelOnly vm u) (he : ∀ m, u.entry .kernel m = vm.entry .kernel m) : Restored vm u :=
  ⟨h.pmm, h.nextDir, h.user, h.tables, h.virt, h.physical, fun m _ => he m⟩

/-- Reserved slots behind the bad page stay reserved. -/
theorem restored_iff_below (hn : j + n < 0x100000) (hs : SameBut j n vm u)
    (hfree : ∀ k < n, vm.entry .kernel (j + k) = 0#32) (hres : ∀ k < n, u.entry .kernel (j + k) = pageValueReserved)
    (hb : b < n) (h : MapReturns vm u a j p n b false u') : Restored vm u' ↔ b + 1 = n := by
  have hslot : ∀ k < n, slot j k = j + k := fun k hk => slot_of_below (by omega)
  constructor
  · intro hr
    by_contra hne
    have hlast : u'.entry .kernel (j + (n - 1)) = u.entry .kernel (j + (n - 1)) := by
      apply h.others _
      intro k hk hkb
      rw [hslot k hk]
      omega
    rw [hr.entry _ (by omega), hfree _ (by omega), hres _ (by omega)] at hlast
    exact absurd hlast (by decide)
  · intro hbn
    apply restored_of_entries h.same
    intro m
    by_cases hm : m < j ∨ j + n ≤ m
    · rw [h.others m fun k hk _ => by rw [hslot k hk]; omega]
      exact hs.entry m hm
    · have hk : m - j < n := by omega
      have hmj : j + (m - j) = m := by omega
      have hclear := h.cleared rfl (m - j) (by omega)
      rw [hslot _ hk, hmj] at hclear
      rw [hclear, ← hmj, hfree _ hk]

/-- Slots that were not reserved are as before. -/
theorem restored_of_top (hfree : FreeRun vm .kernel j n) (hb : b < n) (h : MapReturns vm vm a j p n b false u') :
    Restored vm u' := by
  apply restored_of_entries h.same
  intro m
  by_cases hm : ∃ k ≤ b, m = slot j k
  · obtain ⟨k, hkb, rfl⟩ := hm
    rw [h.cleared rfl k hkb]
    exact (hfree k (by omega)).symm
  · push Not at hm
    exact h.others m fun k _ hkb => hm k hkb

/-- A buffer with a bad page is not handed to the driver, and the kernel directory is as before exactly when the bad page
is the last one or nothing was reserved. -/
theorem mapBuffer_bad {s : Sys} {fd : FdPtr} {node : NodePtr} {r : Buffered} (hk : KernelTables s.vm)
    (hpdir : s.pdir = .user a) (hb : BadPage s.vm a ptr length b) (h : mapBuffer s fd node ptr length = .ok r) :
    ∃ vm', r = .inl (0xFFFFFFFF#32, vm') ∧
      (Restored s.vm vm' ↔ b + 1 = nBlocks ptr length ∨ ¬ RunBelow s.vm (nBlocks ptr length)) := by
  have hlt := hb.lt
  have hmax := nBlocks_lt ptr length
  simp only [mapBuffer, bind_eq_ok, Prod.exists, hpdir, page_toNat] at h
  obtain ⟨kptr, u, hfind, done, u', hmap, h⟩ := h
  rcases findVspace_cases hk (show nBlocks ptr length ≠ 0 by omega) (by omega) with
    ⟨hno, -⟩ | ⟨j, u₁, hfound, h1, h2, hfree, hfirst, hcase⟩
  · rw [hfind, Except.ok.injEq, Prod.mk.injEq] at hno
    obtain ⟨rfl, -⟩ := hno
    simp only [mapUserspaceToKernel, bind_eq_ok, assert_eq_ok] at hmap
    obtain ⟨-, ⟨-, hal, -⟩, -⟩ := hmap
    exact absurd hal (by decide)
  · rw [hfind, Except.ok.injEq, Prod.mk.injEq] at hfound
    obtain ⟨rfl, rfl⟩ := hfound
    rcases hcase with ⟨hj, hs, -, hres⟩ | ⟨hj, rfl⟩
    · obtain ⟨t, hret⟩ := mapUserspaceToKernel_returns hk (by omega) (by omega) (hs.kernelOnly (by omega)) hmap
      obtain ⟨rfl, rfl⟩ := hret.at_bad hb
      have hfree' := (freeRun_of_below hj).1 hfree
      have hrun : RunBelow s.vm (nBlocks ptr length) := ⟨j, h1, hj, hfree'⟩
      rw [if_neg (by decide)] at h
      cases h
      refine ⟨u', rfl, (restored_iff_below hj hs hfree' hres hlt hret).trans ?_⟩
      exact ⟨Or.inl, fun h => h.resolve_right (not_not.2 hrun)⟩
    · obtain ⟨t, hret⟩ := mapUserspaceToKernel_returns hk (by omega) (by omega) SameBut.refl hmap
      obtain ⟨rfl, rfl⟩ := hret.at_bad hb
      have hrun : ¬ RunBelow s.vm (nBlocks ptr length) := by
        rintro ⟨i, hi1, hi, hif⟩
        exact hfirst i hi1 (by omega) ((freeRun_of_below hi).2 hif)
      rw [if_neg (by decide)] at h
      cases h
      exact ⟨u', rfl, fun _ => Or.inr hrun, fun _ => restored_of_top hfree hlt hret⟩

/-- With a run of free pages below the last page, the call gets through. -/
theorem mapBuffer_returns {s : Sys} {fd : FdPtr} {node : NodePtr} (hk : KernelTables s.vm)
    (hpdir : s.pdir = .user a) (hd : TablesAgree (s.vm.dirs (.user a))) (hn : nBlocks ptr length ≠ 0)
    (hrun : RunBelow s.vm (nBlocks ptr length)) : ∃ r, mapBuffer s fd node ptr length = .ok r := by
  have hmax := nBlocks_lt ptr length
  obtain ⟨j, u, hfind, -, hj, hs, -⟩ := findVspace_scratch hk hn hrun
  obtain ⟨done, u', hmap⟩ :=
    mapUserspaceToKernel_total (j := j) (p := ptr.toNat / 4096) hk hd hn (by omega) (hs.kernelOnly (by omega))
  unfold mapBuffer
  simp only [hfind, ok_bind, hpdir, page_toNat, hmap]
  split
  · exact ⟨_, rfl⟩
  · exact ⟨_, rfl⟩

theorem readBuffer_reaches {s : Sys} {fdNum : Word} {table : FdTable} {fd : FdPtr} {node : NodePtr}
    (h : ReachesBuffer s fdNum length table fd node) : readBuffer s fdNum ptr length = mapBuffer s fd node ptr length := by
  unfold readBuffer
  simp only [h.has_table, h.is_open, ok_bind, h.has_node, if_neg h.nonempty]

theorem writeBuffer_reaches {s : Sys} {fdNum : Word} {table : FdTable} {fd : FdPtr} {node : NodePtr}
    (h : ReachesBuffer s fdNum length table fd node) (hn : nBlocks ptr length ≠ 0) :
    writeBuffer s fdNum ptr length = mapBuffer s fd node ptr length := by
  unfold writeBuffer
  simp only [h.has_table, h.is_open, ok_bind, h.has_node, if_neg h.nonempty, assert_bind hn]

end BadPages

/-- **After a bad page.** When `syscall_read` or `syscall_write` has returned -1 for a buffer whose page `b` is the first
that is not the user's, the directories and the descriptors are as before if and only if it is the last page of the
buffer, or no run of free kernel pages for the buffer ends below the last page. -/
theorem rw_failure_restores (driver : Driver) (s s' : Sys) (a : Nat) (fdNum ptr length : Word) (table : FdTable)
    (fd : FdPtr) (node : NodePtr) (b : Nat) (hk : KernelTables s.vm) (hpdir : s.pdir = .user a)
    (hreach : ReachesBuffer s fdNum length table fd node) (hb : BadPage s.vm a ptr length b)
    (h : syscallRead driver s fdNum ptr length = .ok (0xFFFFFFFF#32, s') ∨
      syscallWrite driver s fdNum ptr length = .ok (0xFFFFFFFF#32, s')) :
    (Restored s.vm s'.vm ∧ s'.fds = s.fds) ↔
      b + 1 = nBlocks ptr length ∨ ¬ RunBelow s.vm (nBlocks ptr length) := by
  have hn : nBlocks ptr length ≠ 0 := Nat.ne_of_gt (Nat.lt_of_le_of_lt (Nat.zero_le b) hb.lt)
  have hcall : mapBuffer s fd node ptr length >>= finish driver s = .ok (0xFFFFFFFF#32, s') := by
    rcases h with h | h
    · rw [syscallRead, readBuffer_reaches hreach] at h
      exact h
    · rw [syscallWrite, writeBuffer_reaches hreach hn] at h
      exact h
  obtain ⟨r, hr, hfinish⟩ := bind_eq_ok.1 hcall
  obtain ⟨vm', rfl, hiff⟩ := mapBuffer_bad hk hpdir hb hr
  cases hfinish
  exact ⟨fun hr => hiff.1 hr.1, fun hc => ⟨hiff.2 hc, rfl⟩⟩

/-! A process with two pages of which one is not mapped. -/

/-- A machine with a free kernel directory and user directories with the given entries. -/
def userVm (page : Nat → Word) : Vm := { openVm with
  dirs := Function.update (fun _ => { fullDir 0#32 with tables := fun k => some ⟨0, fun i => page (k * 1024 + i)⟩ })
    .kernel (fullDir 0#32) }

/-- The process on that machine, with one open file. -/
def userSys (page : Nat → Word) : Sys := { openSys with vm := userVm page }

/-- Only page 1 is mapped. -/
def secondMissing (m : Nat) : Word := if m = 1 then 7#32 else 0#32

/-- A driver that reads nothing. -/
def zeroDriver : Driver := fun _ _ _ _ vm => .ok (0#32, vm)

section UserVm

variable {page : Nat → Word} {b : Nat}

theorem userVm_tables : KernelTables (userVm page) := fun _ _ => ⟨⟨_, rfl⟩, rfl⟩

theorem userVm_agree : TablesAgree ((userVm page).dirs (.user 0)) :=
  ⟨fun _ h => absurd (show (1#32 : Word) = 0#32 from h) (by decide), fun _ _ => rfl⟩

theorem userVm_entry {m : Nat} : (userVm page).entry (.user 0) m = page m := by
  unfold Vm.entry Vm.pageAt userVm
  simp only [Function.update_of_ne (show DirPtr.user 0 ≠ .kernel by decide)]
  rw [Nat.div_add_mod' m 1024]

theorem userVm_run {n : Nat} (hn : n < 0xFFFFF) : RunBelow (userVm page) n := ⟨1, Nat.le_refl 1, by omega, fun _ _ => rfl⟩

theorem userSys_reaches : ReachesBuffer (userSys page) 0#32 0x2000#32 ⟨[some 0], 1, 1, 1⟩ 0 0 :=
  ⟨rfl, rfl, rfl, by decide⟩

/-- A read of two pages of which one is bad returns -1. -/
theorem userSys_read (hb : BadPage (userVm page) 0 0x1000#32 0x2000#32 b) :
    ∃ s', syscallRead zeroDriver (userSys page) 0#32 0x1000#32 0x2000#32 = .ok (0xFFFFFFFF#32, s') ∧
      (Restored (userVm page) s'.vm ↔ b + 1 = 2) := by
  have hcount : nBlocks 0x1000#32 0x2000#32 = 2 := by decide
  have hrun : RunBelow (userVm page) (nBlocks 0x1000#32 0x2000#32) := userVm_run (by rw [hcount]; omega)
  obtain ⟨r, hr⟩ := mapBuffer_returns (s := userSys page) userVm_tables rfl userVm_agree (by decide) hrun
  obtain ⟨vm', rfl, hiff⟩ := mapBuffer_bad (s := userSys page) userVm_tables rfl hb hr
  refine ⟨{ userSys page with vm := vm' }, ?_, hiff.trans ⟨fun h => ?_, fun h => Or.inl (h.trans hcount.symm)⟩⟩
  · rw [syscallRead, readBuffer_reaches userSys_reaches, hr]
    rfl
  · rw [← hcount]
    exact h.resolve_right (not_not.2 hrun)

theorem bad_second : BadPage (userVm secondMissing) 0 0x1000#32 0x2000#32 1 := by
  refine ⟨by decide, fun k hk => ?_, ?_⟩
  · have hslot : slot ((0x1000#32 : Word).toNat / 4096) k = 1 := by
      rw [show k = 0 by omega]
      decide
    rw [userVm_entry, hslot]
    exact ⟨by decide, by decide, by decide⟩
  · rw [userVm_entry]
    exact not_userEntry_zero

end UserVm

/-- Only the last page of the buffer is bad. -/
theorem rw_failure_last_page : ∃ s', syscallRead zeroDriver (userSys secondMissing) 0#32 0x1000#32 0x2000#32 =
    .ok (0xFFFFFFFF#32, s') ∧ Restored (userVm secondMissing) s'.vm ∧ s'.fds = (userSys secondMissing).fds := by
  obtain ⟨s', hread, -⟩ := userSys_read bad_second
  refine ⟨s', hread, ?_⟩
  exact (rw_failure_restores zeroDriver (userSys secondMissing) s' 0 0#32 0x1000#32 0x2000#32 _ _ _ 1 userVm_tables rfl
    userSys_reaches bad_second (Or.inl hread)).2 (Or.inl (by decide))

/-- The first page of the buffer is bad: the second kernel page stays reserved. -/
theorem rw_failure_first_page : ∃ s', syscallRead zeroDriver (userSys fun _ => 0#32) 0#32 0x1000#32 0x2000#32 =
    .ok (0xFFFFFFFF#32, s') ∧ ¬ (Restored (userVm fun _ => 0#32) s'.vm ∧ s'.fds = (userSys fun _ => 0#32).fds) := by
  have hb : BadPage (userVm fun _ => 0#32) 0 0x1000#32 0x2000#32 0 := by
    refine ⟨by decide, fun k hk => absurd hk (Nat.not_lt_zero k), ?_⟩
    rw [userVm_entry]
    exact not_userEntry_zero
  obtain ⟨s', hread, hiff⟩ := userSys_read hb
  exact ⟨s', hread, fun hr => absurd (hiff.1 hr.1) (by decide)⟩

/-! ## No address space -/

/-- The kernel directory has no `n` free pages in a row, page 0 left out. -/
def NoRun (vm : Vm) (n : Nat) : Prop := ∀ j, 1 ≤ j → j + n ≤ 0x100000 → ∃ k < n, vm.entry .kernel (j + k) ≠ 0#32

/-- The call of `copy_from_userspace` returns -1, with the buffer and the machine as before. -/
def CopyFromFails (vm : Vm) (a : Nat) (ptr n : Word) (buffer : Nat → Byte) : Prop :=
  ∃ vm', copyFromUserspace vm (.user a) ptr n buffer = .ok (0xFFFFFFFF#32, buffer, vm') ∧
    Restored vm vm' ∧ vm'.frames = vm.frames

/-- The call of `copy_to_userspace` returns -1, with the machine as before. -/
def CopyToFails (vm : Vm) (a : Nat) (ptr n : Word) (buffer : Nat → Byte) : Prop :=
  ∃ vm', copyToUserspace vm (.user a) ptr n buffer = .ok (0xFFFFFFFF#32, vm') ∧
    Restored vm vm' ∧ vm'.frames = vm.frames

/-- The call of `copy_from_userspace_string` returns -1, with the buffer and the machine as before. -/
def StringFails (vm : Vm) (a : Nat) (ptr n : Word) (addr : Nat) (buffer : Nat → Byte) : Prop :=
  ∃ rounds vm', copyFromUserspaceString vm (.user a) ptr n addr buffer rounds =
      .ok (some (0xFFFFFFFF#32, buffer, vm')) ∧ Restored vm vm' ∧ vm'.frames = vm.frames

/-- There is a run of free pages when the pages are counted on from the last one to page 0, and a page of the buffer is
not the user's. -/
def RunAroundTop (vm : Vm) (a : Nat) (ptr n : Word) : Prop :=
  (∃ j, 1 ≤ j ∧ j < 0x100000 ∧ FreeRun vm .kernel j (nBlocks ptr n)) ∧
    ∃ k < nBlocks ptr n, ¬ UserEntry (vm.entry (.user a) (slot (ptr.toNat / 4096) k))

section NoVspace

variable {vm vm' : Vm} {a addr : Nat} {ptr n : Word} {buffer : Nat → Byte}

/-- The callers test for 0. -/
theorem noVspace_ne_zero : ¬ noVspace = 0 := by decide

/-- A run that is found where there is none goes on at page 0. -/
theorem NoRun.wraps {j m : Nat} (h : NoRun vm m) (h1 : 1 ≤ j) (hfree : FreeRun vm .kernel j m) : 0x100000 < j + m := by
  by_contra hle
  obtain ⟨k, hk, hne⟩ := h j h1 (by omega)
  have hzero := hfree k hk
  rw [Nat.mod_eq_of_lt (by omega)] at hzero
  exact hne hzero

/-- Without a run, the common part of the copies returns -1 and leaves no trace exactly when a run around the top is
found and a page of the buffer is not the user's. -/
theorem mapCopy_noRun (hk : KernelTables vm) (hd : TablesAgree (vm.dirs (.user a))) (h : NoRun vm (nBlocks ptr n)) :
    (∃ vm', mapCopy vm (.user a) ptr n = .ok (none, vm') ∧ Restored vm vm' ∧ vm'.frames = vm.frames) ↔
      RunAroundTop vm a ptr n := by
  have hmax := nBlocks_lt ptr n
  have hn : nBlocks ptr n ≠ 0 := by
    intro h0
    obtain ⟨k, hk, -⟩ := h 1 (Nat.le_refl 1) (by omega)
    omega
  unfold mapCopy RunAroundTop
  simp only [assert_bind hn, page_toNat]
  rcases findVspace_cases hk hn (by omega) with ⟨hfind, hno⟩ | ⟨j, u, hfind, h1, h2, hfree, -, hcase⟩
  · -- the failure value is not 0 and not the address of a page
    rw [hfind, ok_bind, if_neg noVspace_ne_zero]
    constructor
    · rintro ⟨vm', hcopy, -⟩
      simp only [mapUserspaceToKernel, bind_eq_ok, assert_eq_ok] at hcopy
      obtain ⟨-, ⟨-, ⟨-, hal, -⟩, -⟩, -⟩ := hcopy
      exact absurd hal (by decide)
    · rintro ⟨⟨j, h1, h2, hfree⟩, -⟩
      exact absurd hfree (hno j h1 h2)
  · have hwrap := h.wraps h1 hfree
    have hu : u = vm := by
      rcases hcase with ⟨hj, -⟩ | ⟨-, hu⟩
      · omega
      · exact hu
    subst hu
    obtain ⟨done, u', hmap⟩ := mapUserspaceToKernel_total (j := j) (p := ptr.toNat / 4096) hk hd hn (by omega) SameBut.refl
    obtain ⟨t, hret⟩ := mapUserspaceToKernel_returns hk hn (by omega) SameBut.refl hmap
    rw [hfind, ok_bind, if_neg (by omega), hmap, ok_bind]
    rcases hret.stop with ⟨rfl, ht⟩ | ⟨rfl, ht, hbad⟩
    · constructor
      · rintro ⟨vm', hcopy, -⟩
        cases hcopy
      · rintro ⟨-, k, hk, hbad⟩
        exact absurd (hret.good k (by omega)) hbad
    · obtain ⟨u'', hun, hs, hf, hclear, hkeep⟩ := unmapFromKernel_slots (j := j) hk hn (by omega) hret.same
      refine ⟨fun _ => ⟨⟨j, h1, h2, hfree⟩, t, ht, hbad⟩, fun _ => ⟨u'', ?_, ?_, hf.trans hret.frames⟩⟩
      · simp only [Bool.false_eq_true, if_false, hun, ok_bind]
        rfl
      · apply restored_of_entries hs
        intro m
        by_cases hm : ∃ k < nBlocks ptr n, m = slot j k
        · obtain ⟨k, hkn, rfl⟩ := hm
          rw [hclear k hkn]
          exact (hfree k hkn).symm
        · push Not at hm
          rw [hkeep m hm]
          exact hret.others m fun k hkn _ => hm k hkn

/-- A copy that gets past the mapper does not copy `0xFFFFFFFF` bytes. -/
theorem mapCopy_count (hk : KernelTables vm) (h : NoRun vm (nBlocks ptr n)) {kptr : Nat}
    (hcopy : mapCopy vm (.user a) ptr n = .ok (some kptr, vm')) : n ≠ 0xFFFFFFFF#32 := by
  rintro rfl
  have hoff := @offset_lt ptr
  have hcount := @nBlocks_eq ptr 0xFFFFFFFF#32
  simp only [BitVec.reduceToNat] at hcount
  simp only [mapCopy, bind_eq_ok, assert_eq_ok] at hcopy
  obtain ⟨-, hn, r, hfind, hcopy⟩ := hcopy
  rcases findVspace_cases hk hn (by omega) with ⟨hno, -⟩ | ⟨j, u, -, h1, h2, hfree, -⟩
  · rw [hno, Except.ok.injEq] at hfind
    subst hfind
    rw [if_neg noVspace_ne_zero] at hcopy
    simp only [mapUserspaceToKernel, bind_eq_ok, assert_eq_ok] at hcopy
    obtain ⟨-, ⟨-, ⟨-, hal, -⟩, -⟩, -⟩ := hcopy
    exact absurd hal (by decide)
  · have hwrap := h.wraps h1 hfree
    omega

/-- A caller of the common part that hands on its failure `f` and returns `n` otherwise. -/
theorem copyFails_iff {β : Type} (hk : KernelTables vm) (hd : TablesAgree (vm.dirs (.user a)))
    (h : NoRun vm (nBlocks ptr n)) {rest : Option Nat × Vm → Kernel β} {f : Vm → β}
    (hnone : ∀ u, rest (none, u) = .ok (f u)) (hinj : ∀ u u', f u = f u' → u = u')
    (hsome : ∀ kptr u u', rest (some kptr, u) = .ok (f u') → n = 0xFFFFFFFF#32) :
    (∃ vm', mapCopy vm (.user a) ptr n >>= rest = .ok (f vm') ∧ Restored vm vm' ∧ vm'.frames = vm.frames) ↔
      RunAroundTop vm a ptr n := by
  rw [← mapCopy_noRun hk hd h]
  constructor
  · rintro ⟨vm', hcall, hr, hf⟩
    obtain ⟨⟨kptr, u⟩, hcopy, hcall⟩ := bind_eq_ok.1 hcall
    cases kptr with
    | none =>
      rw [hnone, Except.ok.injEq] at hcall
      obtain rfl := hinj u vm' hcall
      exact ⟨u, hcopy, hr, hf⟩
    | some kptr => exact absurd (hsome kptr u vm' hcall) (mapCopy_count hk h hcopy)
  · rintro ⟨vm', hcopy, hr, hf⟩
    refine ⟨vm', ?_, hr, hf⟩
    rw [hcopy, ok_bind, hnone]

theorem copyFromFails_iff (hk : KernelTables vm) (hd : TablesAgree (vm.dirs (.user a))) (h : NoRun vm (nBlocks ptr n)) :
    CopyFromFails vm a ptr n buffer ↔ RunAroundTop vm a ptr n := by
  refine copyFails_iff hk hd h (f := fun u => (0xFFFFFFFF#32, buffer, u)) (fun u => rfl) (fun u u' heq => ?_)
    fun kptr u u' hcall => ?_
  · cases heq
    rfl
  · simp only [bind_eq_ok, pure_eq_ok, Prod.mk.injEq] at hcall
    obtain ⟨-, -, -, -, hn, -⟩ := hcall
    exact hn

theorem copyToFails_iff (hk : KernelTables vm) (hd : TablesAgree (vm.dirs (.user a))) (h : NoRun vm (nBlocks ptr n)) :
    CopyToFails vm a ptr n buffer ↔ RunAroundTop vm a ptr n := by
  refine copyFails_iff hk hd h (f := fun u => (0xFFFFFFFF#32, u)) (fun u => rfl) (fun u u' heq => ?_)
    fun kptr u u' hcall => ?_
  · cases heq
    rfl
  · simp only [bind_eq_ok, pure_eq_ok, Prod.mk.injEq] at hcall
    obtain ⟨-, -, -, -, hn, -⟩ := hcall
    exact hn

/-- Without a free page, a string is never copied and the call never returns. -/
theorem not_stringFails (hk : KernelTables vm) (h : NoRun vm 1) : ¬ StringFails vm a ptr n addr buffer := by
  rintro ⟨rounds, vm', hrun, -⟩
  simp only [copyFromUserspaceString, bind_eq_ok, assert_eq_ok] at hrun
  obtain ⟨-, -, r, hfind, hrun⟩ := hrun
  rcases findVspace_cases hk Nat.one_ne_zero (by omega) with ⟨hno, -⟩ | ⟨j, u, -, h1, h2, hfree, -⟩
  · rw [hno, Except.ok.injEq] at hfind
    subst hfind
    rw [if_neg noVspace_ne_zero] at hrun
    exact stringPages_noVspace hrun
  · have hwrap := h.wraps h1 hfree
    omega

end NoVspace

/-- **No address space.** On a kernel directory without a run of free pages for the call, the two copies return -1 and
leave no trace exactly when there is a run around the top of the address space and a page of the buffer is not the
user's; the copy of a string never does. -/
theorem no_vspace_failure (vm : Vm) (a : Nat) (ptr n : Word) (addr : Nat) (buffer : Nat → Byte) (hk : KernelTables vm)
    (hd : TablesAgree (vm.dirs (.user a))) :
    (NoRun vm (nBlocks ptr n) → (CopyFromFails vm a ptr n buffer ↔ RunAroundTop vm a ptr n) ∧
      (CopyToFails vm a ptr n buffer ↔ RunAroundTop vm a ptr n)) ∧
    (NoRun vm 1 → ¬ StringFails vm a ptr n addr buffer) :=
  ⟨fun h => ⟨copyFromFails_iff hk hd h, copyToFails_iff hk hd h⟩, not_stringFails hk⟩

/-- A machine whose kernel directory has the given entries, with empty user directories. -/
def kernelPages (page : Nat → Word) : Vm := { openVm with
  dirs := Function.update (fun _ => { fullDir 0#32 with physicalTables := fun _ => 0#32, tables := fun _ => none })
    .kernel { fullDir 0#32 with tables := fun k => some ⟨0, fun i => page (k * 1024 + i)⟩ } }

/-- Only the first and the last page are free. -/
def endsFree (m : Nat) : Word := if m = 0 ∨ m = 0xFFFFF then 0#32 else 1#32

section KernelPages

variable {page : Nat → Word}

theorem kernelPages_tables : KernelTables (kernelPages page) := fun _ _ => ⟨⟨_, rfl⟩, rfl⟩

theorem kernelPages_agree : TablesAgree ((kernelPages page).dirs (.user 0)) :=
  ⟨fun _ _ => rfl, fun _ h => absurd (show (0#32 : Word) &&& pagePresent = 0#32 by decide) h⟩

theorem kernelPages_entry {m : Nat} : (kernelPages page).entry .kernel m = page m := by
  unfold Vm.entry Vm.pageAt kernelPages
  simp only [Function.update_self]
  rw [Nat.div_add_mod' m 1024]

theorem endsFree_noRun : NoRun (kernelPages endsFree) (nBlocks 0x1000#32 0x2000#32) := by
  have hcount : nBlocks 0x1000#32 0x2000#32 = 2 := by decide
  intro j h1 h2
  rw [hcount] at h2 ⊢
  refine ⟨0, by omega, ?_⟩
  rw [kernelPages_entry, endsFree, if_neg (by omega)]
  decide

theorem endsFree_run : FreeRun (kernelPages endsFree) .kernel 0xFFFFF (nBlocks 0x1000#32 0x2000#32) := by
  have hcount : nBlocks 0x1000#32 0x2000#32 = 2 := by decide
  intro k hk
  rw [hcount] at hk
  rw [kernelPages_entry, endsFree, if_pos (by omega)]

end KernelPages

/-- Two pages for which only the last and the first kernel page are free, and which are not mapped. -/
theorem no_vspace_around_top : NoRun (kernelPages endsFree) (nBlocks 0x1000#32 0x2000#32) ∧
    CopyFromFails (kernelPages endsFree) 0 0x1000#32 0x2000#32 fun _ => 0#8 := by
  have hrun : RunAroundTop (kernelPages endsFree) 0 0x1000#32 0x2000#32 :=
    ⟨⟨0xFFFFF, by omega, by omega, endsFree_run⟩, 0, by decide, not_userEntry_zero⟩
  exact ⟨endsFree_noRun, ((no_vspace_failure (kernelPages endsFree) 0 0x1000#32 0x2000#32 1 (fun _ => 0#8)
    kernelPages_tables kernelPages_agree).1 endsFree_noRun).1.2 hrun⟩

/-- A kernel directory without any free page: the copies stop with an assertion. -/
theorem no_vspace_asserts : NoRun (kernelPages fun _ => 1#32) (nBlocks 0x1000#32 16#32) ∧
    ¬ CopyFromFails (kernelPages fun _ => 1#32) 0 0x1000#32 16#32 fun _ => 0#8 := by
  have hno : NoRun (kernelPages fun _ => 1#32) (nBlocks 0x1000#32 16#32) := by
    intro j _ _
    refine ⟨0, by decide, ?_⟩
    rw [kernelPages_entry]
    decide
  refine ⟨hno, fun hfails => ?_⟩
  obtain ⟨⟨j, h1, h2, hfree⟩, -⟩ := (copyFromFails_iff kernelPages_tables kernelPages_agree hno).1 hfails
  have hzero := hfree 0 (by decide)
  rw [kernelPages_entry] at hzero
  exact absurd hzero (by decide)

end Myunix.Syscall
