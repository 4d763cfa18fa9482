import Myunix.Process.Rules

/-!
# The page tables of user directories

A page table is described three times: by the entry `physical_tables[i]` that the processor reads, by the pointer
`tables[i]`, and by the page of the kernel directory at which the kernel sees it. `TablesSound` says that the three
agree for every user directory and that no two tables share a frame or a page. `tables_runs_sound` carries it through
every run that makes directories, adds tables and maps pages; only `page_directory_free` takes tables away.

A search that finds nothing returns `-1`, which `map_page` refuses; such a run stops there.
-/

namespace Myunix.Process

open Lib Pmm Vmm

/-- Table `k` of user directory `a`, which exists. -/
def UserTable (vm : Vm) (a k : Nat) : Prop := a < vm.nextDir ∧ vm.HasTable (.user a) k

/-- The frame of a table, by the entry that the processor reads. -/
def tableFrame (vm : Vm) (a k : Nat) : Nat := frameOf ((vm.dirs (.user a)).physicalTables k)

/-- The page of the kernel directory at which a table is seen. -/
def tablePage (vm : Vm) (a k : Nat) : Nat := vm.tableVirt ⟨.user a, k⟩ / 4096

/-- Page `n` of the kernel directory maps frame `b`, present and writable. -/
structure KernelMaps (vm : Vm) (n b : Nat) : Prop where
  present : vm.entry .kernel n &&& pagePresent ≠ 0#32
  readwrite : vm.entry .kernel n &&& pageReadwrite ≠ 0#32
  frame : frameOf (vm.entry .kernel n) = b

/-- **The invariant**: the three descriptions of the tables agree, and tables do not overlap. -/
structure TablesSound (vm : Vm) : Prop where
  null : ∀ a k, a < vm.nextDir → (¬ vm.HasTable (.user a) k ↔ (vm.dirs (.user a)).physicalTables k = 0#32)
  aligned : ∀ a k, UserTable vm a k → vm.tableVirt ⟨.user a, k⟩ % 4096 = 0
  mapped : ∀ a k, UserTable vm a k → KernelMaps vm (tablePage vm a k) (tableFrame vm a k)
  used : ∀ a k, UserTable vm a k → vm.pmm.used (tableFrame vm a k) = true
  frames : ∀ a k b l, UserTable vm a k → UserTable vm b l → tableFrame vm a k = tableFrame vm b l →
    a = b ∧ k = l
  pages : ∀ a k b l, UserTable vm a k → UserTable vm b l → tablePage vm a k = tablePage vm b l →
    a = b ∧ k = l

/-- Page `n` of the kernel directory is not the page of a table. -/
def NoTable (n : Nat) (vm : Vm) : Prop := ∀ a k, UserTable vm a k → tablePage vm a k ≠ n

/-- An entry made with the flag for writing has it. -/
theorem readwrite_of_or (x : Word) {f : Word} (hf : f.getLsbD 1 = true) : (x ||| f) &&& pageReadwrite ≠ 0#32 := by
  intro h
  have hbit := congrArg (fun w => w.getLsbD 1) h
  simp only [BitVec.getLsbD_and, BitVec.getLsbD_or, hf, Bool.or_true] at hbit
  exact absurd hbit (by decide)

section Stores

variable {a n k j phys : Nat} {s s' : Vm} {w : Word}

theorem userTable_same (hs : SameTables s s') (b l : Nat) : UserTable s' b l ↔ UserTable s b l := by
  unfold UserTable
  rw [hs.nextDir, hs.hasTable]

theorem NoTable.same (h : NoTable n s) (hs : SameTables s s') : NoTable n s' := by
  intro b l ht
  unfold tablePage
  rw [hs.tableVirt]
  exact h b l ((userTable_same hs b l).1 ht)

/-- The page of a table is in use. -/
theorem TablesSound.noTable (h : TablesSound s) (hfree : s.entry .kernel n = 0#32) : NoTable n s := by
  rintro b l ht rfl
  exact ne_zero_of_present (h.mapped b l ht).present hfree

/-- The tables there were are seen at the same pages, and their pages are mapped as before. -/
theorem TablesSound.of_tables (h : TablesSound s)
    (hnull : ∀ b l, b < s'.nextDir → (¬ s'.HasTable (.user b) l ↔ (s'.dirs (.user b)).physicalTables l = 0#32))
    (hold : ∀ b l, UserTable s' b l → UserTable s b l ∧ s'.tableVirt ⟨.user b, l⟩ = s.tableVirt ⟨.user b, l⟩ ∧
      tableFrame s' b l = tableFrame s b l)
    (hused : ∀ c, s.pmm.used c = true → s'.pmm.used c = true)
    (hkernel : ∀ m, ¬ NoTable m s → s'.entry .kernel m = s.entry .kernel m) : TablesSound s' := by
  have hpage : ∀ b l, UserTable s' b l → tablePage s' b l = tablePage s b l := fun b l ht => by
    unfold tablePage
    rw [(hold b l ht).2.1]
  constructor
  · exact hnull
  · intro b l ht
    rw [(hold b l ht).2.1]
    exact h.aligned b l (hold b l ht).1
  · intro b l ht
    obtain ⟨ht', -, hframe⟩ := hold b l ht
    have hm := h.mapped b l ht'
    have hentry : s'.entry .kernel (tablePage s b l) = s.entry .kernel (tablePage s b l) :=
      hkernel _ fun hno => hno b l ht' rfl
    rw [hpage b l ht, hframe]
    refine ⟨?_, ?_, ?_⟩
    · rw [hentry]; exact hm.present
    · rw [hentry]; exact hm.readwrite
    · rw [hentry]; exact hm.frame
  · intro b l ht
    rw [(hold b l ht).2.2]
    exact hused _ (h.used b l (hold b l ht).1)
  · intro b l b' l' ht ht' heq
    rw [(hold b l ht).2.2, (hold b' l' ht').2.2] at heq
    exact h.frames b l b' l' (hold b l ht).1 (hold b' l' ht').1 heq
  · intro b l b' l' ht ht' heq
    rw [hpage b l ht, hpage b' l' ht'] at heq
    exact h.pages b l b' l' (hold b l ht).1 (hold b' l' ht').1 heq

/-- **The frame rule**: stores elsewhere leave the tables as they are. -/
theorem TablesSound.keep (h : TablesSound s) (hs : SameTables s s')
    (hphys : ∀ b, (s'.dirs (.user b)).physicalTables = (s.dirs (.user b)).physicalTables)
    (hused : ∀ c, s.pmm.used c = true → s'.pmm.used c = true)
    (hkernel : ∀ m, ¬ NoTable m s → s'.entry .kernel m = s.entry .kernel m) : TablesSound s' := by
  refine h.of_tables (fun b l hb => ?_) (fun b l ht => ⟨(userTable_same hs b l).1 ht, hs.tableVirt _ _, ?_⟩) hused hkernel
  · rw [hs.hasTable, hphys]
    exact h.null b l (by rw [← hs.nextDir]; exact hb)
  · unfold tableFrame
    rw [hphys]

/-! ## A new table -/

/-- The tables after `get_table_alloc`: the new one, and those there were. -/
theorem tableAdded_cases (hadd : TableAdded s a k phys j s') {b l : Nat} (ht : UserTable s' b l) :
    b = a ∧ l = k ∧ s'.tableVirt ⟨.user b, l⟩ = j * 4096 ∧ tableFrame s' b l = frameOf (BitVec.ofNat 32 phys) ∨
    UserTable s b l ∧ s'.tableVirt ⟨.user b, l⟩ = s.tableVirt ⟨.user b, l⟩ ∧ tableFrame s' b l = tableFrame s b l := by
  obtain ⟨hb, t, ht⟩ := ht
  rw [hadd.nextDir] at hb
  by_cases hba : b = a
  · subst hba
    rw [hadd.dir] at ht
    by_cases hlk : l = k
    · subst hlk
      refine .inl ⟨rfl, rfl, ?_, ?_⟩
      · simp only [Vm.tableVirt, hadd.dir, Function.update_self]
      · simp only [tableFrame, hadd.dir, Function.update_self]
        exact frameOf_or (by decide)
    · simp only [Function.update_of_ne hlk] at ht
      refine .inr ⟨⟨hb, t, ht⟩, ?_, ?_⟩
      · simp only [Vm.tableVirt, hadd.dir, Function.update_of_ne hlk]
      · simp only [tableFrame, hadd.dir, Function.update_of_ne hlk]
  · rw [hadd.others b hba] at ht
    refine .inr ⟨⟨hb, t, ht⟩, ?_, ?_⟩
    · simp only [Vm.tableVirt, hadd.others b hba]
    · simp only [tableFrame, hadd.others b hba]

/-- What no two tables share is still not shared when the new table gets a value `w` that none of them has. -/
theorem tableAdded_inj {g g' : Nat → Nat → Nat} {w : Nat}
    (hcases : ∀ b l, UserTable s' b l → b = a ∧ l = k ∧ g' b l = w ∨ UserTable s b l ∧ g' b l = g b l)
    (hw : ∀ b l, UserTable s b l → g b l ≠ w)
    (hinj : ∀ b l b' l', UserTable s b l → UserTable s b' l' → g b l = g b' l' → b = b' ∧ l = l') :
    ∀ b l b' l', UserTable s' b l → UserTable s' b' l' → g' b l = g' b' l' → b = b' ∧ l = l' := by
  intro b l b' l' ht ht' heq
  rcases hcases b l ht with ⟨rfl, rfl, hg⟩ | ⟨ht, hg⟩
  · rcases hcases b' l' ht' with ⟨rfl, rfl, -⟩ | ⟨ht', hg'⟩
    · exact ⟨rfl, rfl⟩
    · rw [hg, hg'] at heq
      exact absurd heq.symm (hw b' l' ht')
  · rcases hcases b' l' ht' with ⟨rfl, rfl, hg'⟩ | ⟨ht', hg'⟩
    · rw [hg, hg'] at heq
      exact absurd heq (hw b l ht)
    · rw [hg, hg'] at heq
      exact hinj b l b' l' ht ht' heq

/-- The entry of the directory is still zero exactly where there is no table. -/
theorem TablesSound.addTable_null (h : TablesSound s) (hadd : TableAdded s a k phys j s') (b l : Nat)
    (hb : b < s'.nextDir) : ¬ s'.HasTable (.user b) l ↔ (s'.dirs (.user b)).physicalTables l = 0#32 := by
  rw [hadd.nextDir] at hb
  have hold := h.null b l hb
  simp only [Vm.HasTable] at hold
  by_cases hba : b = a
  · subst hba
    by_cases hlk : l = k
    · subst hlk
      simp only [Vm.HasTable, hadd.dir, Function.update_self]
      constructor
      · exact fun hno => absurd ⟨_, rfl⟩ hno
      · exact fun hzero => absurd hzero (ne_zero_of_present (present_of_or _ (by decide)))
    · simp only [Vm.HasTable, hadd.dir, Function.update_of_ne hlk]
      exact hold
  · simp only [Vm.HasTable, hadd.others b hba]
    exact hold

/-- The new table has a block and a kernel page that no other table has. -/
theorem TablesSound.addTable (h : TablesSound s) (hadd : TableAdded s a k phys j s') : TablesSound s' := by
  obtain ⟨c, -, rfl, hfree, -, -, hused⟩ := pmmAllocBlocksSafe_ok hadd.block
  obtain ⟨hlt, hun⟩ := hfree c ⟨Nat.le_refl c, by omega⟩
  have hle := s.pmm.size_le
  have hc : frameOf (BitVec.ofNat 32 (c * 4096)) = c := frameOf_ofNat (by omega)
  have hnew : s'.pmm.used c = true := by
    rw [hused, decide_eq_true (⟨Nat.le_refl c, by omega⟩ : InRange c 1 c), Bool.or_true]
  have hpage : j * 4096 / 4096 = j := Nat.mul_div_cancel j (by omega)
  have hno : NoTable j s := h.noTable hadd.page_free
  have hframe : ∀ b l, UserTable s b l → tableFrame s b l ≠ c := by
    rintro b l ht rfl
    rw [h.used b l ht] at hun
    cases hun
  refine ⟨h.addTable_null hadd, ?_, ?_, ?_, tableAdded_inj (a := a) (k := k) (fun b l ht => ?_) hframe h.frames,
    tableAdded_inj (a := a) (k := k) (fun b l ht => ?_) hno h.pages⟩
  · intro b l ht
    rcases tableAdded_cases hadd ht with ⟨-, -, hv, -⟩ | ⟨ht, hv, -⟩
    · rw [hv, Nat.mul_mod_left]
    · rw [hv]; exact h.aligned b l ht
  · intro b l ht
    unfold tablePage
    rcases tableAdded_cases hadd ht with ⟨-, -, hv, hf⟩ | ⟨ht, hv, hf⟩
    · rw [hv, hf, hpage, hc]
      refine ⟨?_, ?_, ?_⟩
      · rw [hadd.kernel, if_pos rfl]
        exact present_of_or _ (by decide)
      · rw [hadd.kernel, if_pos rfl]
        exact readwrite_of_or _ (by decide)
      · rw [hadd.kernel, if_pos rfl, frameOf_or (by decide), hc]
    · have hm := h.mapped b l ht
      have hsame : s'.entry .kernel (tablePage s b l) = s.entry .kernel (tablePage s b l) := by
        rw [hadd.kernel, if_neg (hno b l ht)]
      rw [hv, hf]
      refine ⟨?_, ?_, ?_⟩
      · exact hsame ▸ hm.present
      · exact hsame ▸ hm.readwrite
      · exact hsame ▸ hm.frame
  · intro b l ht
    rcases tableAdded_cases hadd ht with ⟨-, -, -, hf⟩ | ⟨ht, -, hf⟩
    · rw [hf, hc]; exact hnew
    · rw [hf, hused, h.used b l ht, Bool.true_or]
  · rcases tableAdded_cases hadd ht with ⟨hb, hl, -, hf⟩ | ⟨ht, -, hf⟩
    · exact Or.inl ⟨hb, hl, hf.trans hc⟩
    · exact Or.inr ⟨ht, hf⟩
  · unfold tablePage
    rcases tableAdded_cases hadd ht with ⟨hb, hl, hv, -⟩ | ⟨ht, hv, -⟩
    · exact Or.inl ⟨hb, hl, by rw [hv, hpage]⟩
    · exact Or.inr ⟨ht, by rw [hv]⟩

/-- **Every step of an address space keeps the tables.** -/
theorem tables_rules (a : Nat) : SpaceRules a (fun s => TablesSound s ∧ a < s.nextDir) NoTable (fun _ => True) where
  alloc h halloc := by
    obtain ⟨c, -, -, -, -, -, hused⟩ := pmmAllocBlocksSafe_ok halloc
    refine ⟨⟨h.1.keep (sameTables_of_dirs rfl rfl) (fun _ => rfl) (fun b hb => ?_) fun _ _ => rfl, h.2⟩,
      fun _ _ => trivial⟩
    show BlockMap.used _ b = true
    rw [hused, hb, Bool.true_or]
  noUser _ _ := trivial
  fill _ h := ⟨h.1.keep (sameTables_of_dirs rfl rfl) (fun _ => rfl) (fun _ hb => hb) fun _ _ => rfl, h.2⟩
  free h hfree := h.1.noTable hfree
  mapKernel h hn ht := by
    refine ⟨h.1.keep sameTables_setEntry (fun _ => physicalTables_setEntry.1) (fun _ hb => hb) fun m hm => ?_, h.2⟩
    rw [entry_setEntry ht, if_neg]
    rintro ⟨-, rfl⟩
    exact hm hn
  setUser h ht _ := by
    refine ⟨h.1.keep sameTables_setEntry (fun _ => physicalTables_setEntry.1) (fun _ hb => hb) fun m _ => ?_, h.2⟩
    rw [entry_setEntry ht, if_neg]
    rintro ⟨hd, -⟩
    cases hd
  addTable h _ hadd := ⟨h.1.addTable hadd, by rw [hadd.nextDir]; exact h.2⟩
  refcount h := ⟨h.1.keep sameTables_setRefcount (fun _ => tables_setRefcount.2) (fun _ hb => hb)
    fun _ _ => entry_setRefcount, h.2⟩
  still hs hn := hn.same hs
  grown hadd hused hn b l ht := by
    unfold tablePage
    rcases tableAdded_cases hadd ht with ⟨-, -, hv, -⟩ | ⟨ht, hv, -⟩
    · rw [hv, Nat.mul_div_cancel _ (by omega)]
      rintro rfl
      exact hused hadd.page_free
    · rw [hv]
      exact hn b l ht

end Stores

/-! ## Whole runs -/

/-- A call that makes a directory, adds tables or maps pages. -/
inductive TablesOp
  | new
  | clone (a : Nat) (old : DirPtr)
  | mapShared (a : Nat)
  | getTableAlloc (a : Nat) (virtaddr : Word)
  | findVspace (dir : DirPtr) (n : Nat)
  | space (a : Nat) (op : SpaceOp)

/-- One such call. -/
def tablesStep (sh : SharedRegions) (vm : Vm) : TablesOp → Kernel Vm
  | .new => do return (← pageDirectoryNew vm).2
  | .clone a old => pageDirectoryClone (.user a) old vm
  | .mapShared a => processPageDirectoryMapShared sh (.user a) vm
  | .getTableAlloc a virtaddr => do return (← Vmm.getTableAlloc (.user a) vm virtaddr.toNat).2
  | .findVspace dir n => do return (← Vmm.findVspace dir n vm).2
  | .space a op => spaceStep sh (.user a) vm op

/-- Calls are made on directories that exist; a directory is not given back. -/
def TablesLegal (vm : Vm) : TablesOp → Prop
  | .new => True
  | .clone a _ => a < vm.nextDir
  | .mapShared a => a < vm.nextDir
  | .getTableAlloc a _ => a < vm.nextDir
  | .findVspace (.user a) _ => a < vm.nextDir
  | .findVspace .kernel _ => True
  | .space a op => a < vm.nextDir ∧ op ≠ .free

section Runs

variable {sh : SharedRegions} {s s' vm vm' : Vm} {d : DirPtr} {n v : Nat}

theorem pageDirectoryNew_nextDir (h : pageDirectoryNew vm = .ok (d, s)) : s.nextDir = vm.nextDir + 1 := by
  simp only [pageDirectoryNew, bind_eq_ok, pure_eq_ok, Prod.exists, Prod.mk.injEq] at h
  obtain ⟨phys, pmm, -, virt, s₁, hfind, t, s₂, htable, s₃, hmap, -, rfl⟩ := h
  have h₁ : s₁.nextDir = vm.nextDir := (sameTables_scratch hfind).nextDir
  obtain ⟨rfl, htab⟩ := getTableAlloc_kernel htable
  rw [← htab] at hmap
  show s₃.nextDir + 1 = vm.nextDir + 1
  rw [(sameTables_mapPage hmap).nextDir, h₁]

/-- A new directory has no tables yet. -/
theorem TablesSound.new (h : TablesSound vm) (hnew : pageDirectoryNew vm = .ok (d, s)) : TablesSound s := by
  have hnext := pageDirectoryNew_nextDir hnew
  obtain ⟨-, phys, j, hadd⟩ := pageDirectoryNew_ok hnew
  obtain ⟨c, -, -, -, -, -, hused⟩ := pmmAllocBlocksSafe_ok hadd.block
  have hempty : ∀ l, ¬ s.HasTable (.user vm.nextDir) l := by
    rintro l ⟨t, ht⟩
    rw [hadd.dir] at ht
    cases ht
  refine h.of_tables (fun b l hb => ?_) (fun b l ht => ?_) (fun b hb => ?_) fun m hm => ?_
  · rw [hnext] at hb
    by_cases hb' : b = vm.nextDir
    · subst hb'
      rw [hadd.dir]
      exact ⟨fun _ => rfl, fun _ => hempty l⟩
    · rw [hasTable_of_dirs (hadd.others b hb'), hadd.others b hb']
      exact h.null b l (by omega)
  · have hb' : b ≠ vm.nextDir := by
      rintro rfl
      exact hempty l ht.2
    have hb := ht.1
    rw [hnext] at hb
    refine ⟨⟨by omega, (hasTable_of_dirs (hadd.others b hb') l).1 ht.2⟩, ?_, ?_⟩
    · simp only [Vm.tableVirt, hadd.others b hb']
    · simp only [tableFrame, hadd.others b hb']
  · rw [hused, hb, Bool.true_or]
  · apply hadd.kernel m
    rintro rfl
    exact hm (h.noTable hadd.page_free)

/-- `find_vspace` on the kernel directory reserves pages that were free. -/
theorem TablesSound.findKernel (h : TablesSound s) (hf : findVspace .kernel n s = .ok (v, s')) : TablesSound s' := by
  rw [findVspace_kernel] at hf
  simp only [findVspaceKernel, findVspaceWith, bind_eq_ok, assert_eq_ok] at hf
  obtain ⟨-, hn, hf⟩ := hf
  rcases vspaceFrom_spec (quiet_eq .kernel) kernelTable_spec hn (by omega) hf with
    ⟨-, rfl, -⟩ | ⟨j, s₁, -, hj, -, hrun, -, rfl, hres⟩
  · exact h
  · -- the pages to come are free, so that they are no pages of tables
    have hpages : ∀ k < (((j * 4096 + n * 4096) % 0x100000000) - j * 4096) / 4096, NoTable (j + k) s := by
      intro k hk
      apply h.noTable
      have hfree := hrun k (by omega)
      rwa [Nat.mod_eq_of_lt (by omega)] at hfree
    refine (forRange_keeps (I := fun u => TablesSound u ∧ SameTables s u) ?_ hres ⟨h, SameTables.refl s⟩).1
    rintro k u u' - hk ⟨hu, hsame⟩ hmap
    refine ⟨?_, hsame.trans (sameTables_mapPage hmap)⟩
    obtain ⟨-, ht, rfl⟩ := mapPage_ok hmap
    have hpage : (j * 4096 + k * 4096) / 4096 = j + k := by omega
    rw [hpage] at ht ⊢
    apply hu.keep sameTables_setEntry (fun _ => physicalTables_setEntry.1) (fun _ hb => hb)
    intro m hm
    rw [entry_setEntry ht, if_neg]
    rintro ⟨-, rfl⟩
    exact hm ((hpages k (by omega)).same hsame)

/-- **One call.** -/
theorem tablesStep_sound (op : TablesOp) (h : TablesSound s) (hop : TablesLegal s op)
    (hstep : tablesStep sh s op = .ok s') : TablesSound s' := by
  cases op with
  | new =>
    simp only [tablesStep, bind_eq_ok, pure_eq_ok, Prod.exists] at hstep
    obtain ⟨d, s₁, hnew, rfl⟩ := hstep
    exact h.new hnew
  | clone a old => exact ((tables_rules a).clone ⟨h, hop⟩ hstep).1
  | mapShared a => exact ((tables_rules a).mapShared ⟨h, hop⟩ hstep).1
  | getTableAlloc a virtaddr =>
    simp only [tablesStep, bind_eq_ok, pure_eq_ok, Prod.exists] at hstep
    obtain ⟨t, s₁, halloc, rfl⟩ := hstep
    exact ((tables_rules a).tableAlloc ⟨h, hop⟩ virtaddr.isLt halloc).1.1
  | findVspace dir n =>
    simp only [tablesStep, bind_eq_ok, pure_eq_ok, Prod.exists] at hstep
    obtain ⟨v, s₁, hfind, rfl⟩ := hstep
    cases dir with
    | kernel => exact h.findKernel hfind
    | user a => exact ((tables_rules a).find ⟨h, hop⟩ hfind).1
  | space a op => exact ((tables_rules a).step ⟨h, hop.1⟩ hop.2 hstep).1

/-- **The page tables are sound in every run** from a machine that has no user directories yet. -/
theorem tables_runs_sound (sh : SharedRegions) (ops : List TablesOp) (hboot : vm.nextDir = 0)
    (hops : StepsMeet (tablesStep sh) TablesLegal vm ops) (hrun : runSteps (tablesStep sh) vm ops = .ok vm') :
    TablesSound vm' := by
  have hnone : ∀ a k, ¬ UserTable vm a k := fun a k ht => Nat.not_lt_zero a (hboot ▸ ht.1)
  have hstart : TablesSound vm :=
    ⟨fun a k ha => absurd (hboot ▸ ha) (Nat.not_lt_zero a), fun a k ht => absurd ht (hnone a k),
      fun a k ht => absurd ht (hnone a k), fun a k ht => absurd ht (hnone a k),
      fun a k _ _ ht => absurd ht (hnone a k), fun a k _ _ ht => absurd ht (hnone a k)⟩
  exact runSteps_keeps (fun _ op _ hs hop hstep => tablesStep_sound op hs hop hstep) ops hstart hops hrun

end Runs

theorem bootVm_size : (32 : Nat) ≤ 1048575 := by decide

/-- A machine with 32 blocks of which the first two are used, a free kernel directory and no user directories. -/
def bootVm : Vm where
  pmm := ⟨fun i => if i = 0 then 3#32 else 0#32, 32, bootVm_size⟩
  dirs _ := ⟨0, fun _ => 1#32, fun _ => some ⟨0, fun _ => 0#32⟩, 0, -1⟩
  nextDir := 0
  frames f i := BitVec.ofNat 8 (f + i)

/-- Two directories, of which the first gets the shared regions and a page, and both a table. -/
def twoSpaces : List TablesOp :=
  [.new, .mapShared 0, .space 0 (.mmap 0#32 0x1000#32 3#32), .new, .findVspace .kernel 3, .getTableAlloc 1 0x400000#32]

/-- A region of one page. -/
def onePage : SharedRegions := ⟨0x1000#32, 0x2000#32, 0x2000#32, 0x2000#32⟩

theorem twoSpaces_sound : ∃ vm, runSteps (tablesStep onePage) bootVm twoSpaces = .ok vm ∧ TablesSound vm ∧
    UserTable vm 0 0 ∧ UserTable vm 1 1 ∧ tableFrame vm 0 0 = 3 ∧ tableFrame vm 1 1 = 6 := by
  obtain ⟨s₁, h₁, hd₁, s₂, h₂, hd₂, s₃, h₃, s₄, h₄, s₅, h₅, hd₅, vm, h₆, hd₆, ht₀, ht₁, hf₀, hf₁⟩ :
      ∃ s₁, tablesStep onePage bootVm .new = .ok s₁ ∧ 0 < s₁.nextDir ∧
      ∃ s₂, tablesStep onePage s₁ (.mapShared 0) = .ok s₂ ∧ 0 < s₂.nextDir ∧
      ∃ s₃, tablesStep onePage s₂ (.space 0 (.mmap 0#32 0x1000#32 3#32)) = .ok s₃ ∧
      ∃ s₄, tablesStep onePage s₃ .new = .ok s₄ ∧
      ∃ s₅, tablesStep onePage s₄ (.findVspace .kernel 3) = .ok s₅ ∧ 1 < s₅.nextDir ∧
      ∃ vm, tablesStep onePage s₅ (.getTableAlloc 1 0x400000#32) = .ok vm ∧ 1 < vm.nextDir ∧
        ((vm.dirs (.user 0)).tables 0).isSome ∧ ((vm.dirs (.user 1)).tables 1).isSome ∧
        tableFrame vm 0 0 = 3 ∧ tableFrame vm 1 1 = 6 :=
    ⟨_, rfl, by decide, _, rfl, by decide, _, rfl, _, rfl, _, rfl, by decide, _, rfl, by decide, by decide +kernel,
      by decide +kernel, by decide +kernel, by decide +kernel⟩
  have hmeet : StepsMeet (tablesStep onePage) TablesLegal bootVm twoSpaces :=
    stepsMeet_cons trivial h₁ (stepsMeet_cons hd₁ h₂ (stepsMeet_cons ⟨hd₂, by simp⟩ h₃
      (stepsMeet_cons trivial h₄ (stepsMeet_cons trivial h₅ (stepsMeet_cons hd₅ h₆ trivial)))))
  have hrun : runSteps (tablesStep onePage) bootVm twoSpaces = .ok vm :=
    (runSteps_cons h₁).trans ((runSteps_cons h₂).trans ((runSteps_cons h₃).trans ((runSteps_cons h₄).trans
      ((runSteps_cons h₅).trans (runSteps_cons h₆)))))
  exact ⟨vm, hrun, tables_runs_sound onePage twoSpaces rfl hmeet hrun,
    ⟨Nat.lt_of_succ_lt hd₆, Option.isSome_iff_exists.1 ht₀⟩, ⟨hd₆, Option.isSome_iff_exists.1 ht₁⟩, hf₀, hf₁⟩

end Myunix.Process
