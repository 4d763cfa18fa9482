import Myunix.Vmm.FindVspace

/-!
# What `find_vspace` promises

`find_vspace` is there to hand out address space nobody else uses: the pages it returns were free, and are marked
reserved, so that the next search passes them by (`VspaceReserved`). It does so for a run of pages that ends below the
last page of the address space. When the first run of free pages reaches the last page, the end address of the
reservation loop wraps, and the pages are handed out without being reserved.

`find_vspace_reserves` says that this is the only exception, for one call and for runs of calls: ranges handed out in a
run are apart as long as no call takes such a run of pages. `find_vspace_last_page` is a directory on which the last
page is handed out and stays free.
-/

namespace Myunix.Vmm

open Lib Pmm

/-- The promise of one call: the `n` pages from `v` were free, are reserved now, and no other entry has changed. -/
structure VspaceReserved (dir : DirPtr) (n : Nat) (vm : Vm) (v : Nat) (vm' : Vm) : Prop where
  aligned : v % 4096 = 0
  nonzero : v ≠ 0
  no_wrap : v + n * 4096 ≤ 0x100000000
  was_free : ∀ m, v / 4096 ≤ m → m < v / 4096 + n → vm.entry dir m = 0#32
  reserved : ∀ m, v / 4096 ≤ m → m < v / 4096 + n → vm'.entry dir m = pageValueReserved
  others : ∀ m, ¬ (v / 4096 ≤ m ∧ m < v / 4096 + n) → vm'.entry dir m = vm.entry dir m

/-- If there are `n` free pages in a row at all, modulo the size of the address space, then there are `n` that end
below the last page. -/
def RunBelowTop (vm : Vm) (dir : DirPtr) (n : Nat) : Prop :=
  (∃ j, 1 ≤ j ∧ j < 0x100000 ∧ FreeRun vm dir j n) →
    ∃ i, 1 ≤ i ∧ i + n < 0x100000 ∧ ∀ k < n, vm.entry dir (i + k) = 0#32

section Call

variable {vm vm' : Vm} {dir : DirPtr} {n v : Nat}

theorem freeRun_of_below {i : Nat} (hi : i + n < 0x100000) :
    FreeRun vm dir i n ↔ ∀ k < n, vm.entry dir (i + k) = 0#32 := by
  unfold FreeRun
  constructor
  · intro h k hk
    have := h k hk
    rwa [Nat.mod_eq_of_lt (by omega)] at this
  · intro h k hk
    rw [Nat.mod_eq_of_lt (by omega)]
    exact h k hk

/-- A run of pages that ends below the last page is reserved as promised. -/
theorem reserved_of_below {j : Nat} {vm₁ : Vm} (h1 : 1 ≤ j) (hj : j + n < 0x100000) (hfree : FreeRun vm dir j n)
    (hg : Grows dir vm vm₁)
    (hres : reserveVspace dir (j * 4096) ((j * 4096 + n * 4096) % 0x100000000) vm₁ = .ok vm') :
    VspaceReserved dir n vm (j * 4096) vm' := by
  have hent := reserveVspace_ok (by omega) hres dir
  have hstart : j * 4096 / 4096 = j := by omega
  have hcount : ((j * 4096 + n * 4096) % 0x100000000 - j * 4096) / 4096 = n := by omega
  simp only [hstart, hcount, true_and] at hent
  refine ⟨by omega, by omega, by omega, fun m hm hm' => ?_, fun m hm hm' => ?_, fun m hm => ?_⟩
  · have := (freeRun_of_below hj).1 hfree (m - j) (by omega)
    rwa [show j + (m - j) = m by omega] at this
  · rw [hent, if_pos (by omega)]
  · rw [hstart] at hm
    rw [hent, if_neg hm, hg.same]

/-- A run that reaches the last page is not reserved as promised. -/
theorem not_reserved_of_top {j : Nat} {vm₁ : Vm} (hj1 : j < 0x100000) (hj : 0x100000 ≤ j + n)
    (hfree : FreeRun vm dir j n) (hg : Grows dir vm vm₁)
    (hres : reserveVspace dir (j * 4096) ((j * 4096 + n * 4096) % 0x100000000) vm₁ = .ok vm') :
    ¬ VspaceReserved dir n vm (j * 4096) vm' := by
  intro h
  have hwrap := h.no_wrap
  have hstart : j * 4096 / 4096 = j := by omega
  -- the range ends at the top exactly, so the reservation loop ends at address 0 and stores nothing
  have hstop : ((j * 4096 + n * 4096) % 0x100000000 - j * 4096) / 4096 = 0 := by omega
  have hent := reserveVspace_ok (by omega) hres dir j
  rw [hstart, hstop, if_neg (by omega), hg.same] at hent
  have hzero := hfree 0 (by omega)
  rw [Nat.add_zero, Nat.mod_eq_of_lt hj1] at hzero
  have hres' := h.reserved j (by omega) (by omega)
  rw [hent, hzero] at hres'
  exact absurd hres' (by decide)

/-- One call keeps its promise exactly when the condition holds. -/
theorem findVspace_reserved_iff (h : findVspace dir n vm = .ok (v, vm')) :
    (v ≠ noVspace → VspaceReserved dir n vm v vm') ↔ RunBelowTop vm dir n := by
  obtain ⟨hn, ⟨rfl, -, hno⟩ | ⟨j, vm₁, h1, h2, rfl, hfree, hfirst, hg, hres⟩⟩ := findVspace_ok h
  · refine ⟨fun _ => ?_, fun _ hv => absurd rfl hv⟩
    rintro ⟨j, h1, h2, hfree⟩
    exact absurd hfree (hno j h1 h2)
  · have hv : j * 4096 ≠ noVspace := by unfold noVspace; omega
    by_cases hj : j + n < 0x100000
    · exact ⟨fun _ _ => ⟨j, h1, hj, (freeRun_of_below hj).1 hfree⟩,
        fun _ _ => reserved_of_below h1 hj hfree hg hres⟩
    · refine ⟨fun hp => absurd (hp hv) (not_reserved_of_top h2 (by omega) hfree hg hres), fun hc => ?_⟩
      -- a run that ends lower starts lower, and would have been found first
      obtain ⟨i, hi1, hi, hif⟩ := hc ⟨j, h1, h2, hfree⟩
      exact absurd ((freeRun_of_below hi).2 hif) (hfirst i hi1 (by omega))

/-- Whatever happens, an entry that is not 0 stays so. -/
theorem findVspace_keeps (h : findVspace dir n vm = .ok (v, vm')) {d : DirPtr} {m : Nat}
    (hm : vm.entry d m ≠ 0#32) : vm'.entry d m ≠ 0#32 := by
  obtain ⟨-, ⟨-, hg, -⟩ | ⟨j, vm₁, -, -, -, -, -, hg, hres⟩⟩ := findVspace_ok h
  · rw [hg.keeps d m hm]; exact hm
  · rw [reserveVspace_ok (by omega) hres]
    split
    · decide
    · rw [hg.keeps d m hm]; exact hm

end Call

/-! ## Runs -/

/-- A call of `find_vspace`, or of `map_page` on an address of the directory. -/
inductive VspaceCall
  | find (dir : DirPtr) (n : Nat)
  | map (dir : DirPtr) (virtaddr physaddr : Nat) (flags : Word)

/-- A range handed out. -/
structure Vspace where
  dir : DirPtr
  addr : Nat
  pages : Nat

/-- The range has virtual page `m` of directory `d`. -/
def Vspace.Covers (r : Vspace) (d : DirPtr) (m : Nat) : Prop :=
  r.dir = d ∧ r.addr / 4096 ≤ m ∧ m < r.addr / 4096 + r.pages

/-- No page is in both ranges. -/
def Vspace.Apart (r s : Vspace) : Prop := ∀ d m, ¬ (r.Covers d m ∧ s.Covers d m)

/-- One call; a search that succeeds returns its range. -/
def vspaceStep (vm : Vm) : VspaceCall → Kernel (Option Vspace × Vm)
  | .find dir n => do
    let (v, vm) ← findVspace dir n vm
    return (if v = noVspace then none else some ⟨dir, v, n⟩, vm)
  | .map dir virtaddr physaddr flags => do
    let vm ← mapPage vm (getTable vm virtaddr dir) virtaddr physaddr flags
    return (none, vm)

/-- A search finds a run below the top if it finds any; `map_page` does not unmap. -/
def VspaceCall.Meets (vm : Vm) : VspaceCall → Prop
  | .find dir n => RunBelowTop vm dir n
  | .map _ _ physaddr flags => BitVec.ofNat 32 physaddr ||| flags ≠ 0#32

section Runs

variable {vm vm' : Vm} {c : VspaceCall} {r : Option Vspace}

theorem vspaceStep_find {dir : DirPtr} {n v : Nat} (h : findVspace dir n vm = .ok (v, vm')) (hv : v ≠ noVspace) :
    vspaceStep vm (.find dir n) = .ok (some ⟨dir, v, n⟩, vm') := by
  simp only [vspaceStep, h, ok_bind, if_neg hv]
  rfl

/-- One step: entries that are not 0 stay so, and a range that is handed out was free and is not free any more. -/
theorem vspaceStep_spec (hc : c.Meets vm) (h : vspaceStep vm c = .ok (r, vm')) :
    (∀ d m, vm.entry d m ≠ 0#32 → vm'.entry d m ≠ 0#32) ∧
      ∀ s, r = some s → ∀ d m, s.Covers d m → vm.entry d m = 0#32 ∧ vm'.entry d m ≠ 0#32 := by
  cases c with
  | find dir n =>
    simp only [vspaceStep, bind_eq_ok, pure_eq_ok, Prod.exists, Prod.mk.injEq] at h
    obtain ⟨v, vm₁, hfind, rfl, rfl⟩ := h
    refine ⟨fun d m hm => findVspace_keeps hfind hm, fun s hs d m hcov => ?_⟩
    split at hs
    · cases hs
    · rename_i hv
      cases hs
      have hres := (findVspace_reserved_iff hfind).2 hc hv
      obtain ⟨rfl, hlo, hhi⟩ := hcov
      refine ⟨hres.was_free m hlo hhi, ?_⟩
      rw [hres.reserved m hlo hhi]
      decide
  | map dir v p f =>
    simp only [vspaceStep, bind_eq_ok, pure_eq_ok, Prod.mk.injEq] at h
    obtain ⟨vm₁, hmap, rfl, rfl⟩ := h
    refine ⟨fun d m hm => ?_, fun s hs => by cases hs⟩
    obtain ⟨-, ht, rfl⟩ := mapPage_ok hmap
    rw [entry_setEntry ht]
    split
    · exact hc
    · exact hm

/-- A page that is not free is in no range that a run hands out later. -/
theorem run_avoids {d : DirPtr} {m : Nat} {calls : List VspaceCall} {vm vm' : Vm} {rs : List (Option Vspace)}
    (hm : Meets vspaceStep (fun vm c => c.Meets vm) vm calls) (h : runOps vspaceStep vm calls = .ok (rs, vm'))
    (hne : vm.entry d m ≠ 0#32) : ∀ s ∈ rs.filterMap id, ¬ s.Covers d m := by
  induction calls generalizing vm rs with
  | nil =>
    simp only [runOps, Except.ok.injEq, Prod.mk.injEq] at h
    rw [← h.1]
    simp
  | cons c calls ih =>
    obtain ⟨r, u, rs', hstep, hrun, rfl⟩ := runOps_cons_ok.1 h
    obtain ⟨hkeep, hnew⟩ := vspaceStep_spec hm.1 hstep
    intro s hs
    rw [List.mem_filterMap] at hs
    obtain ⟨o, ho, hos⟩ := hs
    rcases List.mem_cons.1 ho with rfl | ho
    · intro hcov
      exact hne (hnew s hos d m hcov).1
    · exact ih (hm.2 r u hstep) hrun (hkeep d m hne) s (List.mem_filterMap.2 ⟨o, ho, hos⟩)

/-- The ranges handed out in a run are pairwise apart. -/
theorem run_apart {calls : List VspaceCall} {vm vm' : Vm} {rs : List (Option Vspace)}
    (hm : Meets vspaceStep (fun vm c => c.Meets vm) vm calls) (h : runOps vspaceStep vm calls = .ok (rs, vm')) :
    (rs.filterMap id).Pairwise Vspace.Apart := by
  induction calls generalizing vm rs with
  | nil =>
    simp only [runOps, Except.ok.injEq, Prod.mk.injEq] at h
    rw [← h.1]
    exact List.Pairwise.nil
  | cons c calls ih =>
    obtain ⟨r, u, rs', hstep, hrun, rfl⟩ := runOps_cons_ok.1 h
    have hrest := ih (hm.2 r u hstep) hrun
    cases r with
    | none => exact hrest
    | some s =>
      refine List.pairwise_cons.2 ⟨fun s' hs' d m hcov => ?_, hrest⟩
      have hne := ((vspaceStep_spec hm.1 hstep).2 s rfl d m hcov.1).2
      exact run_avoids (hm.2 _ u hstep) hrun hne s' hs' hcov.2

end Runs

/-- **`find_vspace` reserves what it returns**, for one call exactly when some run of free pages ends below the last
page if there is any run at all; and ranges handed out in a run of such calls, with mapping but no unmapping in
between, are pairwise apart. -/
theorem find_vspace_reserves (vm : Vm) :
    (∀ (dir : DirPtr) (n v : Nat) (vm' : Vm), findVspace dir n vm = .ok (v, vm') →
      ((v ≠ noVspace → VspaceReserved dir n vm v vm') ↔ RunBelowTop vm dir n)) ∧
    ∀ (calls : List VspaceCall) (vm' : Vm) (rs : List (Option Vspace)),
      Meets vspaceStep (fun vm c => c.Meets vm) vm calls → runOps vspaceStep vm calls = .ok (rs, vm') →
      (rs.filterMap id).Pairwise Vspace.Apart :=
  ⟨fun _ _ _ _ h => findVspace_reserved_iff h, fun _ _ _ hm h => run_apart hm h⟩

/-! ## Two directories -/

/-- A machine whose kernel directory has all its tables, with the given entries. -/
def kernelVm (page : Nat → Word) : Vm where
  pmm := ⟨fun _ => 0#32, 0, by omega⟩
  dirs _ := {
    physicalTablesVirt := 0
    physicalTables := fun _ => 0#32
    tables := fun k => some ⟨0, fun i => page (k * 1024 + i)⟩
    physicalAddress := 0
    refcount := -1 }
  nextDir := 0
  frames _ _ := 0#8

section KernelVm

variable {page : Nat → Word}

theorem kernelVm_tables : KernelTables (kernelVm page) := fun _ _ => ⟨⟨_, rfl⟩, rfl⟩

@[simp] theorem kernelVm_entry {d : DirPtr} {m : Nat} : (kernelVm page).entry d m = page m := by
  unfold Vm.entry Vm.pageAt kernelVm
  simp only
  rw [Nat.div_add_mod' m 1024]

end KernelVm

/-- Two calls on a directory whose pages from page 1 on are free. -/
theorem find_vspace_reserves_twice :
    ∃ r s vm', runOps vspaceStep (kernelVm fun _ => 0#32) [.find .kernel 1, .find .kernel 1] =
        .ok ([some r, some s], vm') ∧ r.Apart s ∧
      VspaceReserved .kernel 1 (kernelVm fun _ => 0#32) 4096
        ((kernelVm fun _ => 0#32).setEntry .kernel 1 pageValueReserved) := by
  have hk : KernelTables (kernelVm fun _ => 0#32) := kernelVm_tables
  have hk' : KernelTables ((kernelVm fun _ => 0#32).setEntry .kernel 1 pageValueReserved) := hk.setEntry
  have h1 := findVspaceKernel_first (j := 1) hk (by omega) (by omega) (by simp) (fun i _ _ => by omega)
  rw [if_neg (by omega)] at h1
  have ht : (kernelVm fun _ => 0#32).HasTable .kernel (1 / 1024) := ⟨_, rfl⟩
  have h2 := findVspaceKernel_first (j := 2) hk' (by omega) (by omega) (by rw [entry_setEntry ht]; simp)
    (fun i _ _ => by rw [entry_setEntry ht, if_pos ⟨rfl, by omega⟩]; decide)
  rw [if_neg (by omega)] at h2
  rw [← findVspace_kernel] at h1 h2
  have hb1 : RunBelowTop (kernelVm fun _ => 0#32) .kernel 1 := fun _ => ⟨1, by omega, by omega, by simp⟩
  have hb2 : RunBelowTop ((kernelVm fun _ => 0#32).setEntry .kernel 1 pageValueReserved) .kernel 1 := by
    refine fun _ => ⟨2, by omega, by omega, fun k hk => ?_⟩
    rw [entry_setEntry ht, if_neg (by omega)]
    simp
  have hs1 := vspaceStep_find h1 (by decide)
  have hs2 := vspaceStep_find h2 (by decide)
  have hrun := runOps_cons_ok.2 ⟨_, _, _, hs1, runOps_cons_ok.2 ⟨_, _, _, hs2, runOps_nil, rfl⟩, rfl⟩
  have hmeets : Meets vspaceStep (fun vm c => c.Meets vm) (kernelVm fun _ => 0#32)
      [.find .kernel 1, .find .kernel 1] := meets_cons hb1 hs1 (meets_cons hb2 hs2 trivial)
  have hap := (find_vspace_reserves _).2 _ _ _ hmeets hrun
  exact ⟨_, _, _, hrun, (List.pairwise_cons.1 hap).1 _ (by simp),
    ((find_vspace_reserves _).1 _ _ _ _ h1).2 hb1 (by decide)⟩

/-- A directory on which only the last page is free: the page is returned, and stays free. -/
theorem find_vspace_last_page :
    findVspace .kernel 1 (kernelVm fun m => if m = 0xFFFFF then 0#32 else 1#32) =
        .ok (0xFFFFF000, kernelVm fun m => if m = 0xFFFFF then 0#32 else 1#32) ∧
      0xFFFFF000 ≠ noVspace ∧ ¬ VspaceReserved .kernel 1 (kernelVm fun m => if m = 0xFFFFF then 0#32 else 1#32) 0xFFFFF000
        (kernelVm fun m => if m = 0xFFFFF then 0#32 else 1#32) := by
  refine ⟨?_, by decide, ?_⟩
  · rw [findVspace_kernel, findVspaceKernel_first (j := 0xFFFFF) kernelVm_tables (by omega) (by omega) (by simp)
      (fun i _ hi => by rw [kernelVm_entry, if_neg (by omega)]; decide)]
    rfl
  · intro h
    have := h.reserved 0xFFFFF (by omega) (by omega)
    rw [kernelVm_entry] at this
    exact absurd this (by decide)

end Myunix.Vmm
