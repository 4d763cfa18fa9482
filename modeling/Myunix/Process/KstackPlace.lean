import Myunix.Lib.Census
import Myunix.Process.Kstack

/-!
# The place of a kernel stack

`process_clone` takes pages of the kernel directory for the child's directory and for each of its tables before it
takes the stack, always the lowest free one. So the place of the stack is known before the call (`KstackPlace`): it is
the first run of free pages behind as many free pages as the directory and its tables take (`cloneSpace_free`). The
child's directory holds copies of user pages of the parent, at their addresses, and the shared regions
(`cloneSpace_pages`).
-/

namespace Myunix.Process

open Lib Pmm Vmm

/-! ## Free pages -/

/-- Page `m` of the kernel directory can be taken. -/
def kernelFree (vm : Vm) (m : Nat) : Bool := decide (1 ≤ m ∧ m < 0x100000 ∧ vm.entry .kernel m = 0#32)

/-- Page `m` is free when the `t` lowest free pages are taken. Page 0 is never taken by itself. -/
def FreeBehind (vm : Vm) (t m : Nat) : Prop :=
  vm.entry .kernel m = 0#32 ∧ (m = 0 ∨ t ≤ countBelow m (kernelFree vm))

/-- The pages of a stack at `j` are free when the `t` lowest free pages are taken. -/
def KstackFree (vm : Vm) (t j : Nat) : Prop := ∀ m, InRun j kstackSize m → FreeBehind vm t m

/-- **The place of a stack** that is taken after the `t` lowest free pages. -/
def KstackPlace (vm : Vm) (t j : Nat) : Prop :=
  1 ≤ j ∧ j < 0x100000 ∧ KstackFree vm t j ∧ ∀ j', 1 ≤ j' → j' < j → ¬ KstackFree vm t j'

/-- Table `k` has pages of a shared region. -/
def SharedTable (sh : SharedRegions) (k : Nat) : Prop :=
  (∃ r < regionRounds sh.startData sh.stopData, regionAddr sh.startData r / 0x400000 = k) ∨
    ∃ r < regionRounds sh.startText sh.stopText, regionAddr sh.startText r / 0x400000 = k

instance (sh : SharedRegions) (k : Nat) : Decidable (SharedTable sh k) := inferInstanceAs (Decidable (_ ∨ _))

/-- Table `k` of the directory is present. -/
def PresentTable (vm : Vm) (d : DirPtr) (k : Nat) : Prop := (vm.dirs d).physicalTables k &&& pagePresent ≠ 0#32

instance (vm : Vm) (d : DirPtr) (k : Nat) : Decidable (PresentTable vm d k) := inferInstanceAs (Decidable (_ ≠ _))

/-- The number of pages that `process_clone` takes before the stack. -/
def pagesTaken (sh : SharedRegions) (flags : Word) (old : DirPtr) (vm : Vm) : Nat :=
  if flags &&& cloneFlagsVm ≠ 0#32 then 0
  else 1 + countBelow 1024 fun k => decide (PresentTable vm old k ∨ SharedTable sh k)

section Free

variable {s s' : Vm} {j : Nat}

theorem kernelFree_iff {m : Nat} : kernelFree s m = true ↔ 1 ≤ m ∧ m < 0x100000 ∧ s.entry .kernel m = 0#32 := by
  unfold kernelFree
  rw [decide_eq_true_eq]

/-- The lowest free page is taken. -/
theorem lowestTaken_page (h1 : 1 ≤ j) (h2 : j < 0x100000) (hfree : s.entry .kernel j = 0#32)
    (hfirst : ∀ i, 1 ≤ i → i < j → s.entry .kernel i ≠ 0#32)
    (hsame : ∀ m, m ≠ j → s'.entry .kernel m = s.entry .kernel m) (hused : s'.entry .kernel j ≠ 0#32) :
    LowestTaken 1 (kernelFree s) (kernelFree s') := by
  refine lowestTaken_one (kernelFree_iff.2 ⟨h1, h2, hfree⟩) (fun q hq => ?_) fun q => ?_
  · rw [Bool.eq_false_iff]
    intro hc
    obtain ⟨hq1, -, hq0⟩ := kernelFree_iff.1 hc
    exact hfirst q hq1 hq hq0
  · by_cases hq : q = j
    · subst hq
      rw [decide_eq_false (by simp), Bool.and_false, Bool.eq_false_iff]
      exact fun hc => hused (kernelFree_iff.1 hc).2.2
    · rw [decide_eq_true hq, Bool.and_true]
      unfold kernelFree
      rw [hsame q hq]

/-- The page that a search for one page has taken is the first free one. -/
theorem findVspace_first {v : Nat} (h : findVspace .kernel 1 s = .ok (v, s')) (hal : v % 1024 = 0) :
    ∃ i, v = i * 4096 ∧ 1 ≤ i ∧ s.entry .kernel i = 0#32 ∧ ∀ i', 1 ≤ i' → i' < i → s.entry .kernel i' ≠ 0#32 := by
  rcases findVspace_stores h with ⟨rfl, -⟩ | ⟨i, h1, h2, rfl, hfree, hfirst, -⟩
  · exact absurd hal (by decide)
  · refine ⟨i, rfl, h1, ?_, fun i' hi' hlt hzero => hfirst i' hi' hlt ?_⟩
    · have hzero := hfree 0 (by omega)
      rwa [show (i + 0) % 0x100000 = i by omega] at hzero
    · rintro k hk
      rw [show (i' + k) % 0x100000 = i' by omega]
      exact hzero

/-- If a search returned the page that is in use now and was free, that page was the first free one. -/
theorem lowestTaken_found {v : Nat} {s₁ : Vm} {pmm : BlockMap}
    (h : findVspace .kernel 1 { s with pmm := pmm } = .ok (v, s₁)) (hal : v % 1024 = 0) (hj : j < 0x100000)
    (hsame : ∀ m, m ≠ j → s'.entry .kernel m = s.entry .kernel m)
    (hused : s'.entry .kernel (v / 4096) ≠ 0#32) : 1 ≤ j ∧ LowestTaken 1 (kernelFree s) (kernelFree s') := by
  obtain ⟨i, rfl, hi, hzero, hfirst⟩ := findVspace_first h hal
  rw [Nat.mul_div_cancel i (by omega)] at hused
  have hij : i = j := by
    by_contra hne
    rw [hsame i hne] at hused
    exact hused hzero
  subst hij
  exact ⟨hi, lowestTaken_page hi hj hzero hfirst hsame hused⟩

/-- `get_table_alloc` takes the lowest free page. -/
theorem tableAdded_first {a v phys : Nat} {t : TablePtr} (hno : ¬ s.HasTable (.user a) (v / 0x400000))
    (hadd : TableAdded s a (v / 0x400000) phys j s') (h : getTableAlloc (.user a) s v = .ok (t, s')) :
    LowestTaken 1 (kernelFree s) (kernelFree s') := by
  unfold getTableAlloc at h
  rw [getTable_eq_none.2 hno] at h
  simp only [bind_eq_ok, assert_eq_ok, pure_eq_ok, Prod.exists, Prod.mk.injEq] at h
  obtain ⟨-, -, phys', pmm, -, virt, s₁, hfind, -, -, s₂, hmap, -, -, -, rfl⟩ := h
  rw [← findVspace_kernel] at hfind
  have hentry := (kernelStores_mapPage (T := fun _ => True) (fun _ => trivial) hmap).2
  refine (lowestTaken_found hfind (mapPage_ok hmap).1 hadd.page.2 (fun m hm => ?_) ?_).2
  · rw [hadd.kernel, if_neg hm]
  · rw [hentry]
    exact entry_ne_zero (by decide)

/-- So does `page_directory_new`. -/
theorem pageDirectoryNew_first {d : DirPtr} {phys : Nat} (hadd : DirAdded s phys j s')
    (h : pageDirectoryNew s = .ok (d, s')) : 1 ≤ j ∧ LowestTaken 1 (kernelFree s) (kernelFree s') := by
  simp only [pageDirectoryNew, bind_eq_ok, pure_eq_ok, Prod.exists, Prod.mk.injEq] at h
  obtain ⟨phys, pmm, -, virt, s₁, hfind, t, s₂, htable, s₃, hmap, -, rfl⟩ := h
  obtain ⟨rfl, htab⟩ := getTableAlloc_kernel htable
  rw [← htab] at hmap
  have hentry := (kernelStores_mapPage (T := fun _ => True) (fun _ => trivial) hmap).2
  refine lowestTaken_found hfind (mapPage_ok hmap).1 hadd.page_lt (fun m hm => hadd.kernel m hm) ?_
  rw [entry_addDir, hentry]
  exact entry_ne_zero (by decide)

end Free

/-! ## The child's directory -/

/-- The number of tables of a user directory. -/
def tableCount (vm : Vm) (c : Nat) : Nat := countBelow 1024 fun k => ((vm.dirs (.user c)).tables k).isSome

/-- While directory `c` is made in `vm`, perhaps from directory `p`: `c` has the tables `H`, and its pages are user
pages, with `Q`, or have `B`. -/
structure Copied (vm : Vm) (p c : Nat) (H Q B : Nat → Prop) (s : Vm) : Prop where
  tables : ∀ k, s.HasTable (.user c) k ↔ H k
  parent : s.dirs (.user p) = vm.dirs (.user p)
  pages : ∀ m, s.entry (.user c) m ≠ 0#32 →
    (s.entry (.user c) m &&& pageUser ≠ 0#32 ∧ Q m) ∨ B m

/-- The directory and each of its tables has taken the lowest free page. -/
structure Cloning (vm : Vm) (p c : Nat) (H Q B : Nat → Prop) (s : Vm) : Prop extends Copied vm p c H Q B s where
  zero : s.entry .kernel 0 = 0#32 ↔ vm.entry .kernel 0 = 0#32
  taken : LowestTaken (1 + tableCount s c) (kernelFree vm) (kernelFree s)

section Cloning

variable {vm s s' : Vm} {p c n v k : Nat} {H Q B T : Nat → Prop} {w : Word} {t : TablePtr} {d : DirPtr}

theorem tableCount_eq (h : ∀ k, s.HasTable (.user c) k ↔ H k) [DecidablePred H] :
    tableCount s c = countBelow 1024 fun k => decide (H k) := by
  apply countBelow_congr
  intro k _
  rw [Bool.eq_iff_iff, Option.isSome_iff_exists, decide_eq_true_eq]
  exact h k

theorem tableCount_congr (h : ∀ k, s'.HasTable (.user c) k ↔ s.HasTable (.user c) k) :
    tableCount s' c = tableCount s c := by
  apply countBelow_congr
  intro k _
  rw [Bool.eq_iff_iff, Option.isSome_iff_exists, Option.isSome_iff_exists]
  exact h k

theorem Cloning.new (hp : p ≠ vm.nextDir) (h : pageDirectoryNew vm = .ok (d, s)) :
    d = .user vm.nextDir ∧ Cloning vm p vm.nextDir (fun _ => False) Q B s := by
  obtain ⟨rfl, phys, a, hadd⟩ := pageDirectoryNew_ok h
  obtain ⟨ha, htaken⟩ := pageDirectoryNew_first hadd h
  have hno : ∀ k, ¬ s.HasTable (.user vm.nextDir) k := by
    rintro k ⟨t, ht⟩
    rw [hadd.dir] at ht
    cases ht
  refine ⟨rfl, ⟨⟨fun k => iff_of_false (hno k) id, hadd.others p hp, fun m hm => ?_⟩, ?_, ?_⟩⟩
  · exfalso
    unfold Vm.entry Vm.pageAt at hm
    simp only [hadd.dir] at hm
    exact hm rfl
  · rw [hadd.kernel 0 (by omega)]
  · have hcount : tableCount s vm.nextDir = 0 := countBelow_eq_zero fun k _ => by rw [hadd.dir]; rfl
    rw [hcount]
    exact htaken

/-- A table that is missing takes the lowest free page. -/
theorem Cloning.alloc (h : Cloning vm p c H Q B s) (hpc : p ≠ c) (hv : v < 0x100000000)
    (ha : getTableAlloc (.user c) s v = .ok (t, s')) :
    Cloning vm p c (fun k => H k ∨ k = v / 0x400000) Q B s' := by
  obtain ⟨rfl, ⟨ht, rfl⟩ | ⟨hno, phys, j, hadd⟩⟩ := getTableAlloc_ok hv ha
  · refine ⟨⟨fun k => ?_, h.parent, h.pages⟩, h.zero, h.taken⟩
    rw [h.tables]
    constructor
    · exact .inl
    · rintro (hk | rfl)
      · exact hk
      · exact (h.tables _).1 ht
  · have hsame := hadd.entry_same hno
    have hnone : (s.dirs (.user c)).tables (v / 0x400000) = none := by
      rw [Option.eq_none_iff_forall_ne_some]
      exact fun t ht => hno ⟨t, ht⟩
    have hcount : tableCount s' c = tableCount s c + 1 := by
      have hup := countBelow_update (n := 1024) (p := v / 0x400000)
        (P := fun k => ((s.dirs (.user c)).tables k).isSome) (Q := fun k => ((s'.dirs (.user c)).tables k).isSome)
        (by omega) (fun q hq => by simp only [hadd.dir, Function.update_of_ne hq])
      simp only [hadd.dir, Function.update_self, hnone, Option.isSome_none, Option.isSome_some, Bool.false_eq_true,
        if_false, if_true, Nat.add_zero] at hup
      unfold tableCount
      simp only [hadd.dir]
      exact hup
    refine ⟨⟨fun k => ?_, ?_, fun m hm => ?_⟩, ?_, ?_⟩
    · unfold Vm.HasTable
      rw [hadd.dir]
      by_cases hk : k = v / 0x400000
      · subst hk
        simp only [Function.update_self, Option.some.injEq, exists_eq', or_true]
      · simp only [Function.update_of_ne hk, hk, or_false]
        exact h.tables k
    · rw [hadd.others p hpc]
      exact h.parent
    · rw [hsame] at hm ⊢
      exact h.pages m hm
    · have h1 := hadd.page.1
      rw [hadd.kernel, if_neg (by omega)]
      exact h.zero
    · rw [hcount, ← Nat.add_assoc]
      exact h.taken.trans (tableAdded_first hno hadd ha)

/-- Other steps on the directory leave the free pages of the kernel's free. -/
theorem Cloning.keep (h : Cloning vm p c H Q B s) (hc : Copied vm p c H Q B s')
    (hfree : ∀ m, s'.entry .kernel m = 0#32 ↔ s.entry .kernel m = 0#32) : Cloning vm p c H Q B s' := by
  refine ⟨hc, (hfree 0).trans h.zero, ?_⟩
  have hkernel : kernelFree s' = kernelFree s := by
    funext m
    unfold kernelFree
    simp only [hfree]
  rw [tableCount_congr fun k => (hc.tables k).trans (h.tables k).symm, hkernel]
  exact h.taken

theorem Copied.users (h : Copied vm p c H Q B s) (hs : ∀ b, s'.dirs (.user b) = s.dirs (.user b)) :
    Copied vm p c H Q B s' := by
  refine ⟨fun k => (hasTable_of_dirs (hs c) k).trans (h.tables k), (hs p).trans h.parent, fun m => ?_⟩
  rw [entry_of_dirs (hs c)]
  exact h.pages m

/-- A store to the directory. -/
theorem Copied.setPage (h : Copied vm p c H Q B s) (hpc : p ≠ c) (ht : s.HasTable (.user c) (n / 1024))
    (hw : (w &&& pageUser ≠ 0#32 ∧ Q n) ∨ B n) :
    Copied vm p c H Q B (s.setEntry (.user c) n w) := by
  refine ⟨fun k => hasTable_setEntry.trans (h.tables k), ?_, fun m hm => ?_⟩
  · rw [dirs_setEntry_of_ne (by simpa using hpc)]
    exact h.parent
  · rw [entry_setEntry ht] at hm ⊢
    by_cases hmn : m = n
    · subst hmn
      simpa using hw
    · simp only [hmn, and_false, if_false] at hm ⊢
      exact h.pages m hm

theorem entry_kernel_setUser (ht : s.HasTable (.user c) (n / 1024)) (m : Nat) :
    (s.setEntry (.user c) n w).entry .kernel m = s.entry .kernel m := by
  rw [entry_setEntry ht, if_neg (by simp)]

/-- **One entry** of `page_directory_clone_table`: stores to its two scratch pages, and a copy of a user page. -/
theorem cloneEntry_stores {v' i : Nat} {ot : TablePtr} (hi : i < 1024)
    (h : cloneEntry ⟨.user c, k⟩ ot v v' i s = .ok s') : s' = s ∨ ∃ u w,
      KernelStores (fun m => m = v / 4096 ∨ m = v' / 4096) s u ∧ s' = u.setEntry (.user c) (k * 1024 + i) w ∧
      w &&& pageUser ≠ 0#32 ∧ s.pageAt ot i &&& pageUser ≠ 0#32 := by
  unfold cloneEntry at h
  simp only at h
  split at h
  · cases h; exact .inl rfl
  · split at h
    · cases h; exact .inl rfl
    · split at h
      · simp at h
      · split at h
        · cases h; exact .inl rfl
        · split at h
          next hpage =>
            simp only [bind_eq_ok, pure_eq_ok, Prod.exists] at h
            obtain ⟨-, -, phys, pmm, -, s₁, hmap, -, -, s₂, hmap', -, -, s₃, hcpy, rfl⟩ := h
            simp only [memcpyPage, bind_eq_ok, pure_eq_ok] at hcpy
            obtain ⟨f, -, f', -, rfl⟩ := hcpy
            have hpmm : KernelStores (fun m => m = v / 4096 ∨ m = v' / 4096) s { s with pmm := pmm } :=
              kernelStores_of_dirs rfl rfl
            have h₁ := (kernelStores_mapPage (T := fun m => m = v / 4096 ∨ m = v' / 4096) (fun _ => .inl rfl) hmap).1
            have h₂ := (kernelStores_mapPage (T := fun m => m = v / 4096 ∨ m = v' / 4096) (fun _ => .inr rfl) hmap').1
            refine .inr ⟨{ s₂ with frames := Function.update s₂.frames f' (s₂.frames f) }, _,
              (hpmm.trans (h₁.trans h₂)).trans (kernelStores_of_dirs rfl rfl), setPageAt_eq hi, ?_, hpage.2⟩
            rw [BitVec.and_or_distrib_right, BitVec.and_assoc, show 0x3FF#32 &&& pageUser = pageUser by decide]
            exact fun hc => hpage.2 (BitVec.or_eq_zero_iff.1 hc).2
          · simp at h

/-- **One table**: the scratch pages are free again, and the pages of the table are copied. -/
theorem Cloning.cloneTable (h : Cloning vm p c H Q B s) (hpc : p ≠ c)
    (hQ : ∀ m, vm.entry (.user p) m &&& pageUser ≠ 0#32 → Q m) (hk : s.HasTable (.user c) k)
    (hstep : pageDirectoryCloneTable ⟨.user c, k⟩ ⟨.user p, k⟩ s = .ok s') : Cloning vm p c H Q B s' := by
  simp only [pageDirectoryCloneTable, bind_eq_ok, pure_eq_ok, Prod.exists] at hstep
  obtain ⟨v, s₁, hf, -, -, v', s₂, hf', -, -, s₃, hloop, s₄, hmap, -, -, s₅, hmap', -, -, rfl⟩ := hstep
  rcases findVspace_stores hf with ⟨rfl, -⟩ | ⟨j, h1, h2, rfl, hj, -, hs₁⟩
  · exact absurd (mapPage_ok hmap).1 (by decide)
  rcases findVspace_stores hf' with ⟨rfl, -⟩ | ⟨j', h1', h2', rfl, hj', -, hs₂⟩
  · exact absurd (mapPage_ok hmap').1 (by decide)
  have hpage : ∀ i, i * 4096 / 4096 = i := fun i => Nat.mul_div_cancel i (by omega)
  have hone : ∀ i m, i < 0x100000 → InRun i 1 m → m = i := by
    rintro i m hi ⟨n, hn, rfl⟩
    omega
  have hself : ∀ i, i < 0x100000 → InRun i 1 i := fun i hi => ⟨0, Nat.one_pos, by omega⟩
  -- both pages were free before
  have hzero : s.entry .kernel j = 0#32 := hj.of_inRun (hself j h2)
  have hzero' : s.entry .kernel j' = 0#32 := by
    by_cases hjj : j' = j
    · rw [hjj]
      exact hzero
    · rw [← hs₁.kernel j' fun hc => hjj (hone j j' h2 hc)]
      exact hj'.of_inRun (hself j' h2')
  have hs : KernelStores (fun m => m = j ∨ m = j') s s₂ :=
    (hs₁.imp fun m hm => .inl (hone j m h2 hm)).trans (hs₂.imp fun m hm => .inr (hone j' m h2' hm))
  -- the loop stores to the scratch pages and to the new table
  have hinv := forRange_keeps (I := fun u => Copied vm p c H Q B u ∧
    ∀ m, ¬ (m = j ∨ m = j') → u.entry .kernel m = s.entry .kernel m) ?_ hloop
    ⟨h.toCopied.users hs.users, hs.kernel⟩
  · obtain ⟨hs₄, hlast⟩ := kernelStores_mapPage (T := (· = j)) (fun _ => hpage j) hmap
    obtain ⟨hs₅, hlast'⟩ := kernelStores_mapPage (T := (· = j')) (fun _ => hpage j') hmap'
    rw [hpage] at hlast hlast'
    apply h.keep ((hinv.1.users hs₄.users).users hs₅.users)
    intro m
    by_cases hmj' : m = j'
    · subst hmj'
      exact iff_of_true hlast' hzero'
    rw [hs₅.kernel m hmj']
    by_cases hmj : m = j
    · subst hmj
      exact iff_of_true hlast hzero
    · rw [hs₄.kernel m hmj, hinv.2 m (not_or.2 ⟨hmj, hmj'⟩)]
  · rintro i u u' - hi ⟨hu, hkernel⟩ hstep
    rcases cloneEntry_stores (by omega) hstep with rfl | ⟨u₁, w, hs', rfl, hw, hpageUser⟩
    · exact ⟨hu, hkernel⟩
    · have hdiv : (k * 1024 + i) / 1024 = k := by omega
      have hu₁ := hu.users hs'.users
      have ht : u₁.HasTable (.user c) ((k * 1024 + i) / 1024) := by
        rw [hdiv]
        exact (hu₁.tables k).2 ((h.tables k).1 hk)
      refine ⟨hu₁.setPage hpc ht (.inl ⟨hw, hQ _ ?_⟩), fun m hm => ?_⟩
      · rw [← entry_of_dirs hu.parent]
        unfold Vm.entry
        rw [hdiv, show (k * 1024 + i) % 1024 = i by omega]
        exact hpageUser
      · rw [entry_kernel_setUser ht, hs'.kernel m (by rw [hpage, hpage]; exact hm)]
        exact hkernel m hm

/-- **One round** of `page_directory_clone`. -/
theorem Cloning.cloneRound {i : Nat} (h : Cloning vm p c (fun k => k < i ∧ PresentTable vm (.user p) k) Q B s)
    (hpc : p ≠ c) (hQ : ∀ m, vm.entry (.user p) m &&& pageUser ≠ 0#32 → Q m) (hi : i < 1024)
    (hstep : Process.cloneTable (.user c) (.user p) i s = .ok s') :
    Cloning vm p c (fun k => k < i + 1 ∧ PresentTable vm (.user p) k) Q B s' := by
  have hpresent : (s.dirs (.user p)).physicalTables i = (vm.dirs (.user p)).physicalTables i := by rw [h.parent]
  unfold Process.cloneTable at hstep
  simp only [hpresent] at hstep
  split at hstep
  next hnone =>
    split at hstep
    · cases hstep
      have hsame : (fun k => k < i + 1 ∧ PresentTable vm (.user p) k) =
          fun k => k < i ∧ PresentTable vm (.user p) k := by
        funext k
        rw [Nat.lt_succ_iff_lt_or_eq, or_and_right, eq_iff_iff, or_iff_left]
        rintro ⟨rfl, hk⟩
        exact hk hnone
      rw [hsame]
      exact h
    · simp at hstep
  next hsome =>
    simp only [bind_eq_ok, Prod.exists] at hstep
    obtain ⟨t, s₁, ha, hstep⟩ := hstep
    have hindex : i * 0x400000 / 0x400000 = i := Nat.mul_div_cancel i (by omega)
    have h₁ := h.alloc hpc (by omega) ha
    rw [hindex] at h₁
    have hsame : (fun k => k < i + 1 ∧ PresentTable vm (.user p) k) =
        fun k => (k < i ∧ PresentTable vm (.user p) k) ∨ k = i := by
      funext k
      rw [Nat.lt_succ_iff_lt_or_eq, or_and_right, eq_iff_iff]
      refine or_congr_right ⟨And.left, ?_⟩
      rintro rfl
      exact ⟨rfl, hsome⟩
    rw [hsame]
    split at hstep
    · simp at hstep
    next oldtable htable =>
      obtain ⟨-, rfl⟩ := getTable_eq_some.1 htable
      obtain ⟨rfl, -⟩ := getTableAlloc_ok (by omega) ha
      rw [hindex] at hstep
      exact h₁.cloneTable hpc hQ ((h₁.tables i).2 (.inr rfl)) hstep

/-- A shared region: its tables, and its pages. -/
theorem Cloning.mapSharedRegion {start stop : Word} (h : Cloning vm p c H Q B s) (hpc : p ≠ c)
    (hB : ∀ r < regionRounds start stop, B (regionAddr start r / 4096))
    (hstep : processMapSharedRegion (.user c) start stop pagePresent s = .ok s') :
    Cloning vm p c (fun k => H k ∨ ∃ r < regionRounds start stop, regionAddr start r / 0x400000 = k) Q B s' := by
  simp only [processMapSharedRegion, bind_eq_ok, assert_eq_ok] at hstep
  obtain ⟨-, -, hloop⟩ := hstep
  have hinv := forRange_inv
    (P := fun n u => Cloning vm p c (fun k => H k ∨ ∃ r < n, regionAddr start r / 0x400000 = k) Q B u) ?_ hloop ?_
  · rwa [Nat.zero_add] at hinv
  · intro n u u' _ hn hu hstep
    simp only [bind_eq_ok, Prod.exists] at hstep
    obtain ⟨t, u₁, ha, hmap⟩ := hstep
    have hu₁ := hu.alloc hpc regionAddr_lt ha
    have hsame : (fun k => H k ∨ ∃ r < n + 1, regionAddr start r / 0x400000 = k) =
        fun k => (H k ∨ ∃ r < n, regionAddr start r / 0x400000 = k) ∨ k = regionAddr start n / 0x400000 := by
      funext k
      rw [eq_iff_iff, or_assoc]
      refine or_congr_right ⟨?_, ?_⟩
      · rintro ⟨r, hr, rfl⟩
        rcases Nat.lt_succ_iff_lt_or_eq.1 hr with hr | rfl
        · exact .inl ⟨r, hr, rfl⟩
        · exact .inr rfl
      · rintro (⟨r, hr, rfl⟩ | rfl)
        · exact ⟨r, Nat.lt_succ_of_lt hr, rfl⟩
        · exact ⟨n, Nat.lt_succ_self n, rfl⟩
    rw [hsame]
    rw [← getTableAlloc_getTable regionAddr_lt ha] at hmap
    obtain ⟨-, ht, rfl⟩ := mapPage_ok hmap
    apply hu₁.keep (hu₁.toCopied.setPage hpc ht (.inr (hB n (by omega))))
    intro m
    rw [entry_kernel_setUser ht]
  · have hsame : (fun k => H k ∨ ∃ r < 0, regionAddr start r / 0x400000 = k) = H := by
      funext k
      simp
    rw [hsame]
    exact h

theorem Cloning.mapShared {sh : SharedRegions} (h : Cloning vm p c H Q (SharedPage sh) s) (hpc : p ≠ c)
    (hstep : processPageDirectoryMapShared sh (.user c) s = .ok s') :
    Cloning vm p c (fun k => H k ∨ SharedTable sh k) Q (SharedPage sh) s' := by
  simp only [processPageDirectoryMapShared, bind_eq_ok] at hstep
  obtain ⟨s₁, hdata, htext⟩ := hstep
  have h₁ := h.mapSharedRegion hpc (fun r hr => .inl ⟨r, hr, rfl⟩) hdata
  have h₂ := h₁.mapSharedRegion hpc (fun r hr => .inr ⟨r, hr, rfl⟩) htext
  simp only [or_assoc] at h₂
  exact h₂

/-- **The directory of a new program** holds the shared regions. -/
theorem processPageDirectoryNew_pages {sh : SharedRegions} (h : processPageDirectoryNew sh vm = .ok (d, s)) :
    d = .user vm.nextDir ∧ ∀ m, s.entry (.user vm.nextDir) m ≠ 0#32 → SharedPage sh m := by
  simp only [processPageDirectoryNew, bind_eq_ok, pure_eq_ok, Prod.exists, Prod.mk.injEq] at h
  obtain ⟨d', s₁, hnew, s₂, hmap, rfl, rfl⟩ := h
  have hne : vm.nextDir + 1 ≠ vm.nextDir := by omega
  obtain ⟨rfl, h₁⟩ := Cloning.new (Q := fun _ => False) (B := SharedPage sh) hne hnew
  refine ⟨rfl, fun m hm => ?_⟩
  rcases (h₁.mapShared hne hmap).pages m hm with ⟨-, hfalse⟩ | hB
  · exact hfalse.elim
  · exact hB

/-- **The directory of a child**, with the pages that were taken for it. -/
theorem clonePageDirectory_cloning {sh : SharedRegions} (hp : p ≠ vm.nextDir)
    (h : clonePageDirectory sh (.user p) vm = .ok (d, s)) : d = .user vm.nextDir ∧
      Cloning vm p vm.nextDir (fun k => k < 1024 ∧ PresentTable vm (.user p) k ∨ SharedTable sh k)
        (fun m => vm.entry (.user p) m &&& pageUser ≠ 0#32) (SharedPage sh) s := by
  simp only [clonePageDirectory, bind_eq_ok, pure_eq_ok, Prod.exists, Prod.mk.injEq] at h
  obtain ⟨d', s₁, hnew, s₂, hclone, s₃, hmap, rfl, rfl⟩ := h
  obtain ⟨rfl, h₁⟩ := Cloning.new (Q := fun m => vm.entry (.user p) m &&& pageUser ≠ 0#32) (B := SharedPage sh) hp hnew
  have h₂ := forRange_inv
    (P := fun i u => Cloning vm p vm.nextDir (fun k => k < i ∧ PresentTable vm (.user p) k)
      (fun m => vm.entry (.user p) m &&& pageUser ≠ 0#32) (SharedPage sh) u)
    (fun i u u' _ hi hu hstep => hu.cloneRound hp (fun _ hm => hm) (by omega) hstep) hclone (by simpa using h₁)
  rw [Nat.zero_add] at h₂
  exact ⟨rfl, h₂.mapShared hp hmap⟩

theorem entry_reference {d' : DirPtr} {m : Nat} : (pageDirectoryReference d s).entry d' m = s.entry d' m := by
  unfold pageDirectoryReference
  split
  · exact entry_setRefcount
  · rfl

/-- **The free pages** when the stack is taken. -/
theorem cloneSpace_free {sh : SharedRegions} {flags : Word} {m : Nat} (hp : p < vm.nextDir)
    (h : cloneSpace sh flags (.user p) vm = .ok (d, s)) (hm : m < 0x100000) :
    s.entry .kernel m = 0#32 ↔ FreeBehind vm (pagesTaken sh flags (.user p) vm) m := by
  unfold cloneSpace at h
  unfold pagesTaken
  split at h
  next hflags =>
    simp only [pure_eq_ok, Prod.mk.injEq] at h
    obtain ⟨-, rfl⟩ := h
    rw [if_pos hflags, entry_reference]
    exact ⟨fun hzero => ⟨hzero, .inr (Nat.zero_le _)⟩, And.left⟩
  next hflags =>
    obtain ⟨-, hc⟩ := clonePageDirectory_cloning (Nat.ne_of_lt hp) h
    have hcount : tableCount s vm.nextDir =
        countBelow 1024 fun k => decide (PresentTable vm (.user p) k ∨ SharedTable sh k) := by
      rw [tableCount_eq hc.tables]
      apply countBelow_congr
      intro k hk
      simp only [hk, true_and]
    rw [if_neg hflags, ← hcount]
    by_cases hm0 : m = 0
    · subst hm0
      exact ⟨fun hzero => ⟨hc.zero.1 hzero, .inl rfl⟩, fun hfree => hc.zero.2 hfree.1⟩
    · have hm1 : 1 ≤ m := Nat.one_le_iff_ne_zero.2 hm0
      have htaken := hc.taken m
      rw [Bool.eq_iff_iff, Bool.and_eq_true, kernelFree_iff, kernelFree_iff, decide_eq_true_eq] at htaken
      constructor
      · intro hzero
        obtain ⟨hfree, hle⟩ := htaken.1 ⟨hm1, hm, hzero⟩
        exact ⟨hfree.2.2, .inr hle⟩
      · rintro ⟨hzero, hle⟩
        exact (htaken.2 ⟨⟨hm1, hm, hzero⟩, hle.resolve_left hm0⟩).2.2

/-- **The pages of the child's directory.** -/
theorem cloneSpace_pages {sh : SharedRegions} {flags : Word} (hp : p < vm.nextDir)
    (hpages : ∀ m, vm.entry (.user p) m ≠ 0#32 → vm.entry (.user p) m &&& pageUser ≠ 0#32 ∨ B m)
    (hshared : ∀ m, SharedPage sh m → B m) (h : cloneSpace sh flags (.user p) vm = .ok (d, s)) :
    ∃ c, d = .user c ∧ ∀ m, s.entry (.user c) m ≠ 0#32 →
      (s.entry (.user c) m &&& pageUser ≠ 0#32 ∧ vm.entry (.user p) m &&& pageUser ≠ 0#32) ∨ B m := by
  unfold cloneSpace at h
  split at h
  · simp only [pure_eq_ok, Prod.mk.injEq] at h
    obtain ⟨rfl, rfl⟩ := h
    refine ⟨p, rfl, fun m hm => ?_⟩
    rw [entry_reference] at hm ⊢
    rcases hpages m hm with huser | hB
    · exact .inl ⟨huser, huser⟩
    · exact .inr hB
  · obtain ⟨rfl, hc⟩ := clonePageDirectory_cloning (Nat.ne_of_lt hp) h
    refine ⟨vm.nextDir, rfl, fun m hm => ?_⟩
    rcases hc.pages m hm with huser | hB
    · exact .inl huser
    · exact .inr (hshared m hB)

end Cloning

end Myunix.Process
