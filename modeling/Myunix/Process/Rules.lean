import Myunix.Process.Fork
import Myunix.Process.Space

/-!
# Invariants of address spaces

Whatever a step of an address space does to the machine, it does by a few kinds of stores: it takes blocks, stores to
entries of its directory and to scratch pages of the kernel's, adds tables, and fills pages. `SpaceRules` collects what
an invariant has to say about these; `SpaceRules.step` then carries it through every step.
-/

namespace Myunix.Process

open Lib Pmm Vmm

/-! ## Single accesses -/

section Access

variable {a k i v p : Nat} {s s' s'' : Vm} {t : TablePtr} {d d' : DirPtr} {f w : Word}

/-- `get_table_alloc` returns the table that the directory has then. -/
theorem getTableAlloc_getTable (hv : v < 0x100000000) (h : getTableAlloc (.user a) s v = .ok (t, s')) :
    getTable s' v (.user a) = some t := by
  obtain ⟨rfl, ⟨ht, rfl⟩ | ⟨-, phys, k, hadd⟩⟩ := getTableAlloc_ok hv h
  · exact getTable_eq_some.2 ⟨ht, rfl⟩
  · refine getTable_eq_some.2 ⟨⟨⟨k * 4096, fun _ => 0#32⟩, ?_⟩, rfl⟩
    rw [hadd.dir]
    exact Function.update_self _ _ _

theorem setPageAt_eq (hi : i < 1024) : s.setPageAt ⟨d, k⟩ i w = s.setEntry d (k * 1024 + i) w := by
  unfold Vm.setEntry
  rw [show (k * 1024 + i) / 1024 = k by omega, show (k * 1024 + i) % 1024 = i by omega]

/-- An address of a page has no flags. -/
theorem page_no_user (hp : p % 4096 = 0) : (BitVec.ofNat 32 p ||| pagePresent) &&& pageUser = 0#32 := by
  have hbit : (BitVec.ofNat 32 p).getLsbD 2 = false := by
    have hdiv : ¬ p / 2 ^ 2 % 2 = 1 := by omega
    rw [BitVec.getLsbD_ofNat, Nat.testBit_eq_decide_div_mod_eq, decide_eq_false hdiv, Bool.and_false]
  have hand : BitVec.ofNat 32 p &&& BitVec.twoPow 32 2 = 0#32 := by
    rw [BitVec.and_twoPow, hbit]
    rfl
  rw [BitVec.and_or_distrib_right, show pageUser = BitVec.twoPow 32 2 by decide, hand]
  decide

theorem regionAddr_lt {start : Word} {k : Nat} : regionAddr start k < 0x100000000 := Nat.mod_lt _ (by omega)

theorem kstackAddr_lt {kstack : Word} {i : Nat} : kstackAddr kstack i < 0x100000000 := BitVec.isLt _

theorem mmapProt_shift (edx : Word) : mmapProt edx >>> 12 = 0#32 := by
  unfold mmapProt
  split <;> decide

/-- The same directories have the same tables, and the kernel sees them at the same addresses. -/
structure SameTables (s s' : Vm) : Prop where
  nextDir : s'.nextDir = s.nextDir
  hasTable : ∀ d k, s'.HasTable d k ↔ s.HasTable d k
  tableVirt : ∀ d k, s'.tableVirt ⟨d, k⟩ = s.tableVirt ⟨d, k⟩

theorem SameTables.refl (s : Vm) : SameTables s s := ⟨rfl, fun _ _ => Iff.rfl, fun _ _ => rfl⟩

theorem SameTables.trans (h : SameTables s s') (h' : SameTables s' s'') : SameTables s s'' :=
  ⟨h'.nextDir.trans h.nextDir, fun d k => (h'.hasTable d k).trans (h.hasTable d k),
    fun d k => (h'.tableVirt d k).trans (h.tableVirt d k)⟩

theorem sameTables_of_dirs (hdirs : s'.dirs = s.dirs) (hnext : s'.nextDir = s.nextDir) : SameTables s s' := by
  refine ⟨hnext, fun d k => ?_, fun d k => ?_⟩
  · unfold Vm.HasTable
    rw [hdirs]
  · unfold Vm.tableVirt
    rw [hdirs]

theorem sameTables_setEntry {n : Nat} : SameTables s (s.setEntry d n w) :=
  ⟨rfl, fun _ _ => hasTable_setEntry, fun _ _ => tableVirt_setEntry⟩

theorem sameTables_mapPage (h : mapPage s (getTable s v d) v p f = .ok s') : SameTables s s' := by
  obtain ⟨-, -, rfl⟩ := mapPage_ok h
  exact sameTables_setEntry

theorem sameTables_scratch (hf : findVspace .kernel 1 s = .ok (v, s')) : SameTables s s' := by
  rw [findVspace_kernel] at hf
  rcases findVspaceKernel_one hf with ⟨-, rfl⟩ | ⟨-, -, -, -, -, ⟨-, rfl⟩ | ⟨-, -, rfl⟩⟩
  · exact SameTables.refl s'
  · exact SameTables.refl s'
  · exact sameTables_setEntry

/-- A change of the reference count leaves the tables and what they hold. -/
theorem tables_setRefcount {n : Int} : ((setRefcount s d n).dirs d').tables = (s.dirs d').tables ∧
    ((setRefcount s d n).dirs d').physicalTables = (s.dirs d').physicalTables := by
  unfold setRefcount
  by_cases hd : d' = d
  · subst hd
    simp only [Function.update_self, and_self]
  · simp only [Function.update_of_ne hd, and_self]

theorem entry_setRefcount {n : Int} {m : Nat} : (setRefcount s d n).entry d' m = s.entry d' m := by
  unfold Vm.entry Vm.pageAt
  simp only [tables_setRefcount.1]

theorem sameTables_setRefcount {n : Int} : SameTables s (setRefcount s d n) := by
  refine ⟨rfl, fun d' k => ?_, fun d' k => ?_⟩
  · unfold Vm.HasTable
    rw [tables_setRefcount.1]
  · unfold Vm.tableVirt
    simp only [tables_setRefcount.1]

end Access

/-! ## The rules -/

/-- What an invariant `I` says about the stores of the steps of directory `a`. `S n` says that page `n` of the kernel
directory can be a scratch page, and `W w` that `w` can be an entry of the directory. -/
structure SpaceRules (a : Nat) (I : Vm → Prop) (S : Nat → Vm → Prop) (W : Word → Prop) : Prop where
  /-- A block is taken, for a page of the directory or for a table. -/
  alloc : ∀ {s phys pmm}, I s → pmmAllocBlocksSafe s.pmm 1 = .ok (phys, pmm) →
    I { s with pmm := pmm } ∧ ∀ f : Word, f >>> 12 = 0#32 → W (BitVec.ofNat 32 phys ||| f)
  /-- Entries that are not for the user. -/
  noUser : ∀ w, w &&& pageUser = 0#32 → W w
  fill : ∀ {s} frames, I s → I { s with frames := frames }
  /-- A scratch page is free when it is taken. -/
  free : ∀ {s n}, I s → s.entry .kernel n = 0#32 → S n s
  mapKernel : ∀ {s n w}, I s → S n s → s.HasTable .kernel (n / 1024) → I (s.setEntry .kernel n w)
  setUser : ∀ {s n w}, I s → s.HasTable (.user a) (n / 1024) → W w → I (s.setEntry (.user a) n w)
  addTable : ∀ {s k phys j s'}, I s → ¬ s.HasTable (.user a) k → TableAdded s a k phys j s' → I s'
  refcount : ∀ {s n}, I s → I (setRefcount s (.user a) n)
  /-- A scratch page that is in use is not taken for a table. -/
  still : ∀ {s s' n}, SameTables s s' → S n s → S n s'
  grown : ∀ {s k phys j s' n}, TableAdded s a k phys j s' → s.entry .kernel n ≠ 0#32 → S n s → S n s'

namespace SpaceRules

variable {a k i n v v' p kTmp : Nat} {s s' : Vm} {t ot : TablePtr} {f : Word} {old : DirPtr} {sh : SharedRegions}
  {I : Vm → Prop} {S : Nat → Vm → Prop} {W : Word → Prop}

theorem mapKernelPage (R : SpaceRules a I S W) (h : I s) (hv : v % 1024 = 0 → S (v / 4096) s)
    (hmap : mapPage s (getTable s v .kernel) v p f = .ok s') :
    I s' ∧ s'.entry .kernel (v / 4096) = BitVec.ofNat 32 p ||| f := by
  obtain ⟨hal, ht, rfl⟩ := mapPage_ok hmap
  exact ⟨R.mapKernel h (hv hal) ht, by rw [entry_setEntry ht, if_pos ⟨rfl, rfl⟩]⟩

theorem mapUser (R : SpaceRules a I S W) (h : I s) (hw : W (BitVec.ofNat 32 p ||| f))
    (hmap : mapPage s (getTable s v (.user a)) v p f = .ok s') : I s' := by
  obtain ⟨-, ht, rfl⟩ := mapPage_ok hmap
  exact R.setUser h ht hw

theorem tableAlloc (R : SpaceRules a I S W) (h : I s) (hv : v < 0x100000000)
    (ha : getTableAlloc (.user a) s v = .ok (t, s')) :
    I s' ∧ getTable s' v (.user a) = some t ∧ ∀ n, s.entry .kernel n ≠ 0#32 → S n s → S n s' := by
  refine ⟨?_, getTableAlloc_getTable hv ha, fun n hn hs => ?_⟩
  · obtain ⟨-, ⟨-, rfl⟩ | ⟨hno, phys, j, hadd⟩⟩ := getTableAlloc_ok hv ha
    · exact h
    · exact R.addTable h hno hadd
  · obtain ⟨-, ⟨-, rfl⟩ | ⟨-, phys, j, hadd⟩⟩ := getTableAlloc_ok hv ha
    · exact hs
    · exact R.grown hadd hn hs

/-- A scratch page is taken. -/
theorem scratch (R : SpaceRules a I S W) (h : I s) (hf : findVspace .kernel 1 s = .ok (v, s')) :
    I s' ∧ SameTables s s' ∧ (v % 1024 = 0 → S (v / 4096) s') := by
  have hsame := sameTables_scratch hf
  rw [findVspace_kernel] at hf
  rcases findVspaceKernel_one hf with ⟨rfl, rfl⟩ | ⟨k, -, -, rfl, hfree, hcase⟩
  · exact ⟨h, hsame, fun hal => absurd hal (by decide)⟩
  · have hs := R.free h hfree
    have hpage : k * 4096 / 4096 = k := Nat.mul_div_cancel k (by omega)
    rw [hpage]
    refine ⟨?_, hsame, fun _ => R.still hsame hs⟩
    rcases hcase with ⟨-, rfl⟩ | ⟨-, ht, rfl⟩
    · exact h
    · exact R.mapKernel h hs ht

theorem fillPage (R : SpaceRules a I S W) {content : Nat → Byte} (h : I s)
    (hf : Process.fillPage v content s = .ok s') : I s' ∧ s'.dirs = s.dirs ∧ SameTables s s' := by
  simp only [Process.fillPage, bind_eq_ok, pure_eq_ok] at hf
  obtain ⟨frame, -, rfl⟩ := hf
  exact ⟨R.fill _ h, rfl, sameTables_of_dirs rfl rfl⟩

/-! ## Searches of the directory -/

/-- Looking up and adding tables of the directory. -/
def Quietly (a : Nat) (I : Vm → Prop) (s s' : Vm) : Prop :=
  (∀ m, s'.entry (.user a) m = s.entry (.user a) m) ∧ (I s → I s')

theorem quiet_quietly : Quiet (.user a) (Quietly a I) where
  refl _ := ⟨fun _ => rfl, id⟩
  trans h h' := ⟨fun m => (h'.1 m).trans (h.1 m), fun hp => h'.2 (h.2 hp)⟩
  same h := h.1

theorem tableSpec_quietly (R : SpaceRules a I S W) : TableSpec (.user a) (Quietly a I) (getTableAlloc (.user a)) := by
  intro vm v t vm' hv h
  obtain ⟨ht, hgrows⟩ := getTableAlloc_spec (.user a) hv h
  exact ⟨ht, hgrows.same, fun hp => (R.tableAlloc hp hv h).1⟩

/-- `find_vspace` on the directory reserves pages, which are no user pages. -/
theorem find (R : SpaceRules a I S W) (h : I s) (hf : findVspace (.user a) n s = .ok (v, s')) : I s' := by
  simp only [findVspace, findVspaceWith, bind_eq_ok, assert_eq_ok] at hf
  obtain ⟨-, hn, hf⟩ := hf
  rcases vspaceFrom_spec quiet_quietly R.tableSpec_quietly hn (by omega) hf with
    ⟨-, hg, -⟩ | ⟨k, s₁, -, -, -, -, -, hg, hres⟩
  · exact hg.2 h
  · refine forRange_keeps ?_ hres (hg.2 h)
    intro i u u' _ _ hu hmap
    exact R.mapUser hu (R.noUser _ (by decide)) hmap

/-! ## Shared regions -/

theorem mapSharedRegion (R : SpaceRules a I S W) {start stop : Word} (h : I s)
    (hmap : processMapSharedRegion (.user a) start stop pagePresent s = .ok s') : I s' := by
  simp only [processMapSharedRegion, bind_eq_ok, assert_eq_ok] at hmap
  obtain ⟨-, hal, hmap⟩ := hmap
  refine forRange_keeps ?_ hmap h
  intro k u u' _ _ hu hstep
  simp only [bind_eq_ok, Prod.exists] at hstep
  obtain ⟨t, u₁, ht, hstep⟩ := hstep
  obtain ⟨hu₁, htab, -⟩ := R.tableAlloc hu regionAddr_lt ht
  rw [← htab] at hstep
  refine R.mapUser hu₁ (R.noUser _ (page_no_user ?_)) hstep
  unfold regionAddr
  omega

theorem mapShared (R : SpaceRules a I S W) (h : I s)
    (hstep : processPageDirectoryMapShared sh (.user a) s = .ok s') : I s' := by
  simp only [processPageDirectoryMapShared, bind_eq_ok] at hstep
  obtain ⟨s₁, hdata, htext⟩ := hstep
  exact R.mapSharedRegion (R.mapSharedRegion h hdata) htext

/-! ## A copy of another directory -/

/-- What the loop of `page_directory_clone_table` keeps: its scratch pages and the new table stay what they are. -/
def Copying (a k v v' : Nat) (I : Vm → Prop) (S : Nat → Vm → Prop) (s : Vm) : Prop :=
  I s ∧ s.HasTable (.user a) k ∧ (v % 1024 = 0 → S (v / 4096) s) ∧ (v' % 1024 = 0 → S (v' / 4096) s)

theorem Copying.same (R : SpaceRules a I S W) (h : Copying a k v v' I S s) (hI : I s') (hs : SameTables s s') :
    Copying a k v v' I S s' :=
  ⟨hI, (hs.hasTable _ _).2 h.2.1, fun hv => R.still hs (h.2.2.1 hv), fun hv => R.still hs (h.2.2.2 hv)⟩

/-- A copied page is in a new block. -/
theorem cloneEntry (R : SpaceRules a I S W) (h : Copying a k v v' I S s) (hi : i < 1024)
    (hstep : Process.cloneEntry ⟨.user a, k⟩ ot v v' i s = .ok s') : Copying a k v v' I S s' := by
  unfold Process.cloneEntry at hstep
  simp only at hstep
  split at hstep
  · cases hstep; exact h
  · split at hstep
    · cases hstep; exact h
    · split at hstep
      · simp at hstep
      · split at hstep
        · cases hstep; exact h
        · split at hstep
          · simp only [bind_eq_ok, pure_eq_ok, Prod.exists] at hstep
            obtain ⟨-, -, phys, pmm, halloc, s₁, hmap, -, -, s₂, hmap', -, -, s₃, hcpy, rfl⟩ := hstep
            obtain ⟨h₀, hw⟩ := R.alloc h.1 halloc
            have hc₀ : Copying a k v v' I S { s with pmm := pmm } := h.same R h₀ (sameTables_of_dirs rfl rfl)
            have hc₁ := hc₀.same R (R.mapKernelPage h₀ hc₀.2.2.1 hmap).1 (sameTables_mapPage hmap)
            have hc₂ := hc₁.same R (R.mapKernelPage hc₁.1 hc₁.2.2.2 hmap').1 (sameTables_mapPage hmap')
            simp only [memcpyPage, bind_eq_ok, pure_eq_ok] at hcpy
            obtain ⟨f, -, f', -, rfl⟩ := hcpy
            have hc₃ := hc₂.same R (R.fill (Function.update s₂.frames f' (s₂.frames f)) hc₂.1)
              (sameTables_of_dirs rfl rfl)
            rw [setPageAt_eq hi]
            refine hc₃.same R (R.setUser hc₃.1 ?_ (hw _ (flags_shift _))) sameTables_setEntry
            rw [show (k * 1024 + i) / 1024 = k by omega]
            exact hc₃.2.1
          · simp at hstep

theorem cloneTable (R : SpaceRules a I S W) (h : I s) (ht : s.HasTable (.user a) k)
    (hstep : pageDirectoryCloneTable ⟨.user a, k⟩ ot s = .ok s') : I s' := by
  simp only [pageDirectoryCloneTable, bind_eq_ok, pure_eq_ok, Prod.exists] at hstep
  obtain ⟨v, s₁, hf, -, -, v', s₂, hf', -, -, s₃, hloop, s₄, hmap, -, -, s₅, hmap', -, -, rfl⟩ := hstep
  obtain ⟨h₁, hs₁, hv⟩ := R.scratch h hf
  obtain ⟨h₂, hs₂, hv'⟩ := R.scratch h₁ hf'
  have hc₂ : Copying a k v v' I S s₂ :=
    ⟨h₂, ((hs₁.trans hs₂).hasTable _ _).2 ht, fun hal => R.still hs₂ (hv hal), hv'⟩
  have hc₃ := forRange_keeps (I := Copying a k v v' I S)
    (fun i u u' _ hi hu hstep => R.cloneEntry hu (by omega) hstep) hloop hc₂
  have hc₄ := hc₃.same R (R.mapKernelPage hc₃.1 hc₃.2.2.1 hmap).1 (sameTables_mapPage hmap)
  exact (R.mapKernelPage hc₄.1 hc₄.2.2.2 hmap').1

theorem clone (R : SpaceRules a I S W) (h : I s) (hstep : pageDirectoryClone (.user a) old s = .ok s') : I s' := by
  refine forRange_keeps ?_ hstep h
  intro i u u' _ hi hu hstep
  unfold Process.cloneTable at hstep
  simp only at hstep
  split at hstep
  · split at hstep
    · cases hstep; exact hu
    · simp at hstep
  · simp only [bind_eq_ok, Prod.exists] at hstep
    obtain ⟨t, u₁, ha, hstep⟩ := hstep
    obtain ⟨hu₁, htab, -⟩ := R.tableAlloc hu (by omega) ha
    split at hstep
    · simp at hstep
    · obtain ⟨ht, rfl⟩ := getTable_eq_some.1 htab
      exact R.cloneTable hu₁ ht hstep

/-! ## User pages -/

/-- The scratch page of `process_execve` stays one: it is mapped whenever a table is added. -/
theorem execPage (R : SpaceRules a I S W) {content : Nat → Byte} (h : I s ∧ (kTmp % 1024 = 0 → S (kTmp / 4096) s))
    (hv : v < 0x100000000) (hstep : Process.execPage (.user a) kTmp v content s = .ok s') :
    I s' ∧ (kTmp % 1024 = 0 → S (kTmp / 4096) s') := by
  simp only [Process.execPage, bind_eq_ok, Prod.exists] at hstep
  obtain ⟨phys, pmm, halloc, s₁, hmap, -, -, s₂, hfill, t, s₃, ha, hstep⟩ := hstep
  obtain ⟨h₀, hw⟩ := R.alloc h.1 halloc
  have hs₀ : SameTables s { s with pmm := pmm } := sameTables_of_dirs rfl rfl
  obtain ⟨h₁, hmapped⟩ := R.mapKernelPage h₀ (fun hal => R.still hs₀ (h.2 hal)) hmap
  obtain ⟨h₂, hdirs, hs₂⟩ := R.fillPage h₁ hfill
  obtain ⟨h₃, htab, hkeep⟩ := R.tableAlloc h₂ hv ha
  rw [← htab] at hstep
  refine ⟨R.mapUser h₃ (hw _ (by decide)) hstep, fun hal => ?_⟩
  refine R.still (sameTables_mapPage hstep) (hkeep _ ?_ ?_)
  · rw [entry_of_dirs (congrFun hdirs _), hmapped]
    exact ne_zero_of_present (present_of_or _ (by decide))
  · exact R.still (hs₀.trans ((sameTables_mapPage hmap).trans hs₂)) (h.2 hal)

theorem execPages (R : SpaceRules a I S W) {content : Nat → Nat → Byte} {start n : Nat}
    (h : I s ∧ (kTmp % 1024 = 0 → S (kTmp / 4096) s))
    (hstep : Process.execPages (.user a) kTmp start n content s = .ok s') :
    I s' ∧ (kTmp % 1024 = 0 → S (kTmp / 4096) s') := by
  refine forRange_keeps (I := fun u => I u ∧ (kTmp % 1024 = 0 → S (kTmp / 4096) u)) ?_ hstep h
  intro i u u' _ _ hu hstep
  exact R.execPage hu (Nat.mod_lt _ (by omega)) hstep

theorem execve (R : SpaceRules a I S W) {text : Nat → Nat → Byte} {textPages : Nat} (h : I s)
    (hstep : processExecvePages (.user a) textPages text s = .ok s') : I s' := by
  simp only [processExecvePages, bind_eq_ok, Prod.exists] at hstep
  obtain ⟨kTmp, s₁, hf, -, -, s₂, h2, s₃, h3, s₄, h4, s₅, h5, hmap⟩ := hstep
  obtain ⟨h₁, -, hk⟩ := R.scratch h hf
  have h₅ := R.execPages (R.execPages (R.execPages (R.execPages ⟨h₁, hk⟩ h2) h3) h4) h5
  exact (R.mapKernelPage h₅.1 h₅.2 hmap).1

theorem mmapPage (R : SpaceRules a I S W) {prot : Word} (h : I s ∧ (kTmp % 1024 = 0 → S (kTmp / 4096) s))
    (hp : prot >>> 12 = 0#32) (hstep : Process.mmapPage (.user a) kTmp v prot s = .ok s') :
    I s' ∧ (kTmp % 1024 = 0 → S (kTmp / 4096) s') := by
  simp only [Process.mmapPage, bind_eq_ok, Prod.exists] at hstep
  obtain ⟨phys, pmm, halloc, -, -, -, -, s₁, hmap, s₂, hfill, s₃, hmap', -, -, hstep⟩ := hstep
  obtain ⟨h₀, hw⟩ := R.alloc h.1 halloc
  have hs₀ : SameTables s { s with pmm := pmm } := sameTables_of_dirs rfl rfl
  obtain ⟨h₁, -⟩ := R.mapKernelPage h₀ (fun hal => R.still hs₀ (h.2 hal)) hmap
  obtain ⟨h₂, -, hfilled⟩ := R.fillPage h₁ hfill
  have hs₂ := hs₀.trans ((sameTables_mapPage hmap).trans hfilled)
  obtain ⟨h₃, -⟩ := R.mapKernelPage h₂ (fun hal => R.still hs₂ (h.2 hal)) hmap'
  have hs₄ := hs₂.trans ((sameTables_mapPage hmap').trans (sameTables_mapPage hstep))
  exact ⟨R.mapUser h₃ (hw _ hp) hstep, fun hal => R.still hs₄ (h.2 hal)⟩

theorem mmap (R : SpaceRules a I S W) {addr len edx r : Word} (h : I s)
    (hstep : syscallMmapAnon (.user a) addr len edx s = .ok (r, s')) : I s' := by
  unfold syscallMmapAnon at hstep
  split at hstep
  · simp only [pure_eq_ok, Prod.mk.injEq] at hstep
    rw [← hstep.2]
    exact h
  · simp only [bind_eq_ok, pure_eq_ok, Prod.exists, Prod.mk.injEq] at hstep
    obtain ⟨base, s₁, haddr, kptr, s₂, hf, -, -, s₃, hloop, -, rfl⟩ := hstep
    have h₁ : I s₁ := by
      unfold mmapAddr at haddr
      split at haddr
      · exact R.find h haddr
      · simp only [pure_eq_ok, Prod.mk.injEq] at haddr
        rw [← haddr.2]
        exact h
    obtain ⟨h₂, -, hk⟩ := R.scratch h₁ hf
    refine (forRange_keeps (I := fun u => I u ∧ (kptr % 1024 = 0 → S (kptr / 4096) u)) ?_ hloop ⟨h₂, hk⟩).1
    intro i u u' _ _ hu hstep
    exact R.mmapPage hu (mmapProt_shift edx) hstep

/-! ## Kernel stacks -/

/-- A page of a kernel stack is no user page. -/
theorem mapKstack (R : SpaceRules a I S W) {kstack : Word} (h : I s)
    (hstep : processMapKstack (.user a) kstack s = .ok s') : I s' := by
  simp only [processMapKstack, bind_eq_ok, assert_eq_ok] at hstep
  obtain ⟨-, -, hloop⟩ := hstep
  refine forRange_keeps ?_ hloop h
  intro i u u' _ _ hu hstep
  simp only [mapKstackPage, bind_eq_ok, assert_eq_ok, pure_eq_ok, Prod.exists] at hstep
  obtain ⟨page, -, -, hpage, t, u₁, ha, -, -, -, -, t', u₂, ha', rfl⟩ := hstep
  obtain ⟨hu₁, -⟩ := R.tableAlloc hu kstackAddr_lt ha
  obtain ⟨hu₂, htab, -⟩ := R.tableAlloc hu₁ kstackAddr_lt ha'
  obtain ⟨ht, rfl⟩ := getTable_eq_some.1 htab
  unfold setPage
  rw [setPageAt_eq (Nat.mod_lt _ (by omega))]
  refine R.setUser hu₂ ?_ (R.noUser _ hpage)
  rw [show (kstackAddr kstack i / 0x400000 * 1024 + kstackAddr kstack i / 4096 % 1024) / 1024 =
    kstackAddr kstack i / 0x400000 by omega]
  exact ht

theorem unmapKstack (R : SpaceRules a I S W) {kstack : Word} (h : I s)
    (hstep : processUnmapKstack (.user a) kstack s = .ok s') : I s' := by
  simp only [processUnmapKstack, bind_eq_ok, assert_eq_ok] at hstep
  obtain ⟨-, -, hloop⟩ := hstep
  refine forRange_keeps ?_ hloop h
  intro i u u' _ _ hu hstep
  simp only [unmapKstackPage, bind_eq_ok, assert_eq_ok, Prod.exists] at hstep
  obtain ⟨kpage, -, t, u₁, ha, upage, -, -, -, t', u₂, ha', hstep⟩ := hstep
  obtain ⟨hu₁, -⟩ := R.tableAlloc hu kstackAddr_lt ha
  obtain ⟨hu₂, htab, -⟩ := R.tableAlloc hu₁ kstackAddr_lt ha'
  rw [← htab] at hstep
  exact R.mapUser hu₂ (R.noUser _ (by decide)) hstep

/-! ## Every step -/

theorem reference (R : SpaceRules a I S W) (h : I s) : I (pageDirectoryReference (.user a) s) := by
  unfold pageDirectoryReference
  split
  · exact R.refcount h
  · exact h

/-- **One step**, the releases apart. -/
theorem step (R : SpaceRules a I S W) {op : SpaceOp} (h : I s) (hop : op ≠ .free)
    (hstep : spaceStep sh (.user a) s op = .ok s') : I s' := by
  cases op with
  | execve textPages text => exact R.execve h hstep
  | mmap addr len edx =>
    simp only [spaceStep, bind_eq_ok, pure_eq_ok, Prod.exists] at hstep
    obtain ⟨r, s₁, hmmap, rfl⟩ := hstep
    exact R.mmap h hmmap
  | mapKstack kstack => exact R.mapKstack h hstep
  | unmapKstack kstack => exact R.unmapKstack h hstep
  | reference =>
    simp only [spaceStep, pure_eq_ok] at hstep
    subst hstep
    exact R.reference h
  | free => exact absurd rfl hop

end SpaceRules

end Myunix.Process
