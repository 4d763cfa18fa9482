import Myunix.Process.KstackPlace
import Myunix.Process.Tables

/-!
# Kernel stacks and user mappings

Kernel stacks are placed by the free pages of the kernel directory, mappings of a program by those of its own. The
invariant of runs is that what a user directory holds, user pages apart, is in use in the kernel's too (`KstackSound`):
so a new kernel stack can only meet a user page. `kstack_runs` says that it meets none in the runs in which no
`process_clone` is called while the process has a user page at the place of the next stack; in `stackRun_collides` a
process maps memory there.
-/

namespace Myunix.Process

open Lib Pmm Vmm

/-! ## Runs -/

/-- The machine, its processes, and the ranges of the kernel heap as addresses and numbers of pages. -/
structure KstackWorld where
  vm : Vm
  procs : List Proc
  heap : List (Nat × Nat)

/-- A step of a process, or of the kernel heap. -/
inductive KstackOp
  | spawnInit (textPages : Nat) (text : Nat → Nat → Byte)
  | clone (p : Proc) (flags : Word)
  | mmapAnon (p : Proc) (len edx : Word)
  | exit (p : Proc)
  | heapAlloc (pages : Nat)
  | heapFree (v pages : Nat)

/-- One step. -/
def kstackStep (sh : SharedRegions) (x : KstackWorld) : KstackOp → Kernel KstackWorld
  | .spawnInit textPages text => do
    let (p, vm) ← processSpawnInit sh textPages text x.vm
    return { x with vm := vm, procs := p :: x.procs }
  | .clone p flags => do
    let (child, vm) ← processClone sh p flags x.vm
    return { x with vm := vm, procs := child :: x.procs }
  | .mmapAnon p len edx => do
    let (_, vm) ← syscallMmapAnon p.pdir 0#32 len edx x.vm
    return { x with vm := vm }
  | .exit p => do
    let vm ← processExitSpace sh p x.vm
    return { x with vm := vm, procs := x.procs.erase p }
  | .heapAlloc pages => do
    let (v, vm) ← liballocAlloc pages x.vm
    return { x with vm := vm, heap := (v, pages) :: x.heap }
  | .heapFree v pages => do
    let vm ← liballocFree v pages x.vm
    return { x with vm := vm, heap := x.heap.erase (v, pages) }

/-- Steps are made by processes that exist; a mapping is of 1 to 300 whole pages; the heap gives back what it got. -/
def KstackLegal (x : KstackWorld) : KstackOp → Prop
  | .spawnInit _ _ => True
  | .clone p _ => p ∈ x.procs
  | .mmapAnon p len _ => p ∈ x.procs ∧ 0 < len.toNat ∧ len.toNat % 4096 = 0 ∧ len.toNat ≤ 300 * 4096
  | .exit p => p ∈ x.procs
  | .heapAlloc _ => True
  | .heapFree v pages => (v, pages) ∈ x.heap

/-- **The property**: when the step comes to `process_map_kstack`, its assertion holds. -/
def KstackAsserted (sh : SharedRegions) (x : KstackWorld) : KstackOp → Prop
  | .spawnInit _ _ => KstackFits (processPageDirectoryNew sh x.vm)
  | .clone p flags => KstackFits (cloneSpace sh flags p.pdir x.vm)
  | .mmapAnon _ _ _ | .exit _ | .heapAlloc _ | .heapFree _ _ => True

/-- **The condition**: a process that is cloned has no user page at the place of the next stack. -/
def KstackClear (sh : SharedRegions) (x : KstackWorld) : KstackOp → Prop
  | .clone p flags => ∀ j, KstackPlace x.vm (pagesTaken sh flags p.pdir x.vm) j → ∀ m, InRun j kstackSize m →
    x.vm.entry p.pdir m &&& pageUser = 0#32
  | .spawnInit _ _ | .mmapAnon _ _ _ | .exit _ | .heapAlloc _ | .heapFree _ _ => True

/-! ## The invariant -/

/-- The kernel uses page `m`, and not for its heap. -/
def Held (x : KstackWorld) (m : Nat) : Prop :=
  x.vm.entry .kernel m ≠ 0#32 ∧ ∀ r ∈ x.heap, ¬ InRun (r.1 / 4096) r.2 m

/-- **The invariant**: a user directory holds user pages, and pages that the kernel uses as well. -/
structure KstackSound (sh : SharedRegions) (x : KstackWorld) : Prop where
  procs : ∀ p ∈ x.procs, ∃ a < x.vm.nextDir, p.pdir = .user a
  shared : ∀ m, SharedPage sh m → Held x m
  pages : ∀ a < x.vm.nextDir, ∀ m, x.vm.entry (.user a) m ≠ 0#32 →
    x.vm.entry (.user a) m &&& pageUser ≠ 0#32 ∨ Held x m
  heap : ∀ r ∈ x.heap, r.1 % 4096 = 0 ∧ ∀ m, InRun (r.1 / 4096) r.2 m → x.vm.entry .kernel m ≠ 0#32
  apart : x.heap.Pairwise fun r r' => ∀ m, InRun (r.1 / 4096) r.2 m → ¬ InRun (r'.1 / 4096) r'.2 m

/-- What user directory `a` holds, user pages apart, has `B`. -/
def Marked (B : Nat → Prop) (a : Nat) (s : Vm) : Prop :=
  ∀ m, s.entry (.user a) m ≠ 0#32 → s.entry (.user a) m &&& pageUser ≠ 0#32 ∨ B m

/-! ## What the steps leave -/

section Rules

variable {sh : SharedRegions} {s s' s'' vm : Vm} {a b v : Nat} {d : DirPtr} {kstack : Word}

/-- A page that the kernel uses stays in use. -/
theorem kernelUsed_rules (a m : Nat) :
    SpaceRules a (fun s => s.entry .kernel m ≠ 0#32) (fun n _ => n ≠ m) (fun _ => True) where
  alloc h _ := ⟨h, fun _ _ => trivial⟩
  noUser _ _ := trivial
  fill _ h := h
  free h hfree := by
    rintro rfl
    exact h hfree
  mapKernel h hn ht := by
    rw [entry_setEntry ht, if_neg fun hc => hn hc.2.symm]
    exact h
  setUser h ht _ := by
    rw [entry_kernel_setUser ht]
    exact h
  addTable h _ hadd := by
    rw [hadd.kernel, if_neg fun hc => h (by rw [hc]; exact hadd.page_free)]
    exact h
  refcount h := by
    rw [entry_setRefcount]
    exact h
  still _ hn := hn
  grown _ _ hn := hn

/-- The other directories stay as they are. -/
theorem otherDir_rules (hb : b ≠ a) (D : PageDirectory) :
    SpaceRules a (fun s => s.dirs (.user b) = D) (fun _ _ => True) (fun _ => True) where
  alloc h _ := ⟨h, fun _ _ => trivial⟩
  noUser _ _ := trivial
  fill _ h := h
  free _ _ := trivial
  mapKernel h _ _ := dirs_setEntry_kernel.trans h
  setUser h _ _ := (dirs_setEntry_of_ne (by simpa using hb)).trans h
  addTable h _ hadd := (hadd.others b hb).trans h
  refcount h := (Function.update_of_ne (by simpa using hb) _ _).trans h
  still _ h := h
  grown _ _ h := h

theorem nextDir_rules (a N : Nat) :
    SpaceRules a (fun s => s.nextDir = N) (fun _ _ => True) (fun _ => True) where
  alloc h _ := ⟨h, fun _ _ => trivial⟩
  noUser _ _ := trivial
  fill _ h := h
  free _ _ := trivial
  mapKernel h _ _ := h
  setUser h _ _ := h
  addTable h _ hadd := hadd.nextDir.trans h
  refcount h := h
  still _ h := h
  grown _ _ h := h

/-- **What a step on directory `a` leaves**: the pages that the kernel uses stay in use, and the other directories stay. -/
structure Leaves (a : Nat) (s s' : Vm) : Prop where
  kernel : ∀ m, s.entry .kernel m ≠ 0#32 → s'.entry .kernel m ≠ 0#32
  others : ∀ b, b ≠ a → s'.dirs (.user b) = s.dirs (.user b)
  nextDir : s'.nextDir = s.nextDir

theorem Leaves.trans (h : Leaves a s s') (h' : Leaves a s' s'') : Leaves a s s'' :=
  ⟨fun m hm => h'.kernel m (h.kernel m hm), fun b hb => (h'.others b hb).trans (h.others b hb),
    h'.nextDir.trans h.nextDir⟩

/-- What every invariant of address spaces survives leaves the rest alone. -/
theorem leaves_of_rules
    (h : ∀ {I : Vm → Prop} {S : Nat → Vm → Prop} {W : Word → Prop}, SpaceRules a I S W → I s → I s') :
    Leaves a s s' :=
  ⟨fun m hm => h (kernelUsed_rules a m) hm, fun _ hb => h (otherDir_rules hb _) rfl, h (nextDir_rules a _) rfl⟩

/-- A kernel stack is taken from free pages. -/
theorem leaves_kstackAlloc (h : taskKstackAlloc s = .ok (kstack, s')) : Leaves a s s' := by
  obtain ⟨j, -, -, -, -, -, hstores, hused⟩ := taskKstackAlloc_ok h
  refine ⟨fun m hm => ?_, fun b _ => hstores.users b, hstores.nextDir⟩
  by_cases hrun : InRun j kstackSize m
  · exact hused m hrun
  · rw [hstores.kernel m hrun]
    exact hm

/-- Directory `c` has been made, or had been there: of the others none has changed. -/
structure Made (vm : Vm) (c : Nat) (s : Vm) : Prop where
  kernel : ∀ m, vm.entry .kernel m ≠ 0#32 → s.entry .kernel m ≠ 0#32
  others : ∀ b, b ≠ c → s.dirs (.user b) = vm.dirs (.user b)
  lt : c < s.nextDir
  le : vm.nextDir ≤ s.nextDir
  old : ∀ b, b < s.nextDir → b ≠ c → b < vm.nextDir

theorem Made.leaves {c : Nat} (h : Made vm c s) (h' : Leaves c s s') : Made vm c s' := by
  refine ⟨fun m hm => h'.kernel m (h.kernel m hm), fun b hb => (h'.others b hb).trans (h.others b hb), ?_, ?_, ?_⟩
  · rw [h'.nextDir]
    exact h.lt
  · rw [h'.nextDir]
    exact h.le
  · rw [h'.nextDir]
    exact h.old

theorem made_self (ha : a < vm.nextDir) : Made vm a vm :=
  ⟨fun _ hm => hm, fun _ _ => rfl, ha, Nat.le_refl _, fun _ hb _ => hb⟩

theorem made_new (h : pageDirectoryNew vm = .ok (d, s)) : Made vm vm.nextDir s := by
  have hnext := pageDirectoryNew_nextDir h
  obtain ⟨-, phys, j, hadd⟩ := pageDirectoryNew_ok h
  refine ⟨fun m hm => ?_, hadd.others, by omega, by omega, fun _ _ _ => by omega⟩
  rw [hadd.kernel m]
  · exact hm
  · rintro rfl
    exact hm hadd.page_free

theorem made_processNew (h : processPageDirectoryNew sh vm = .ok (d, s)) : Made vm vm.nextDir s := by
  simp only [processPageDirectoryNew, bind_eq_ok, pure_eq_ok, Prod.exists, Prod.mk.injEq] at h
  obtain ⟨d', s₁, hnew, s₂, hmap, -, rfl⟩ := h
  obtain ⟨rfl, -⟩ := pageDirectoryNew_ok hnew
  exact (made_new hnew).leaves (leaves_of_rules fun R hI => R.mapShared hI hmap)

theorem made_clone {flags : Word} {c : Nat} (ha : a < vm.nextDir)
    (h : cloneSpace sh flags (.user a) vm = .ok (.user c, s)) : Made vm c s := by
  unfold cloneSpace at h
  split at h
  · simp only [pure_eq_ok, Prod.mk.injEq, DirPtr.user.injEq] at h
    obtain ⟨rfl, rfl⟩ := h
    exact (made_self ha).leaves (leaves_of_rules fun R hI => R.reference hI)
  · simp only [clonePageDirectory, bind_eq_ok, pure_eq_ok, Prod.exists, Prod.mk.injEq] at h
    obtain ⟨d', s₁, hnew, s₂, hclone, s₃, hmap, rfl, rfl⟩ := h
    obtain ⟨hd, -⟩ := pageDirectoryNew_ok hnew
    cases hd
    exact (made_new hnew).leaves (leaves_of_rules fun R hI => R.mapShared (R.clone hI hclone) hmap)

end Rules

/-! ## Entries of a user directory -/

section Marked

variable {sh : SharedRegions} {s s' s'' : Vm} {a v n : Nat} {B : Nat → Prop} {t : TablePtr} {w kstack : Word}

theorem Marked.same (h : Marked B a s) (hs : ∀ m, s'.entry (.user a) m = s.entry (.user a) m) : Marked B a s' := by
  intro m
  rw [hs m]
  exact h m

theorem Marked.users (h : Marked B a s) (hs : s'.dirs (.user a) = s.dirs (.user a)) : Marked B a s' :=
  h.same (entry_of_dirs hs)

theorem Marked.setEntry (h : Marked B a s) (ht : s.HasTable (.user a) (n / 1024))
    (hw : w = 0#32 ∨ w &&& pageUser ≠ 0#32 ∨ B n) : Marked B a (s.setEntry (.user a) n w) := by
  intro m hm
  rw [entry_setEntry ht] at hm ⊢
  by_cases hmn : m = n
  · subst hmn
    simp only [and_self, if_true] at hm ⊢
    exact hw.resolve_left hm
  · simp only [hmn, and_false, if_false] at hm ⊢
    exact h m hm

theorem Marked.alloc (h : Marked B a s) (hv : v < 0x100000000) (ha : getTableAlloc (.user a) s v = .ok (t, s')) :
    Marked B a s' :=
  h.same (getTableAlloc_spec (.user a) hv ha).2.same

/-- A kernel stack is entered. -/
theorem Marked.mapKstack (h : Marked B a s) (hB : ∀ i < kstackSize, B (kstackAddr kstack i / 4096))
    (hstep : processMapKstack (.user a) kstack s = .ok s') : Marked B a s' := by
  simp only [processMapKstack, bind_eq_ok, assert_eq_ok] at hstep
  obtain ⟨-, -, hloop⟩ := hstep
  refine forRange_keeps ?_ hloop h
  intro i u u' _ hi hu hstep
  obtain ⟨u₁, hgrows, ht, rfl, -⟩ := mapKstackPage_ok kstackAddr_lt hstep
  exact (hu.same hgrows.same).setEntry ht (.inr (.inr (hB i (by omega))))

/-- An entry with the user flag is one of a user page. -/
theorem user_of_or (x : Word) {f : Word} (hf : f &&& pageUser ≠ 0#32) : (x ||| f) &&& pageUser ≠ 0#32 := by
  rw [BitVec.and_or_distrib_right]
  exact fun hc => hf (BitVec.or_eq_zero_iff.1 hc).2

theorem Marked.execPage {kTmp : Nat} {content : Nat → Byte} (h : Marked B a s) (hv : v < 0x100000000)
    (hstep : execPage (.user a) kTmp v content s = .ok s') : Marked B a s' := by
  simp only [Process.execPage, bind_eq_ok, Prod.exists] at hstep
  obtain ⟨phys, pmm, -, s₁, hmap, -, -, s₂, hfill, t, s₃, ha, hstep⟩ := hstep
  simp only [fillPage, bind_eq_ok, pure_eq_ok] at hfill
  obtain ⟨frame, -, rfl⟩ := hfill
  have hstores := (kernelStores_mapPage (T := fun _ => True) (fun _ => trivial) hmap).1
  have h₁ : Marked B a s₁ := h.users (hstores.users a)
  have h₂ : Marked B a { s₁ with frames := Function.update s₁.frames frame content } := h₁.users rfl
  rw [← getTableAlloc_getTable hv ha] at hstep
  obtain ⟨-, ht, rfl⟩ := mapPage_ok hstep
  exact (h₂.alloc hv ha).setEntry ht (.inr (.inl (user_of_or _ (by decide))))

/-- The pages of a program are user pages. -/
theorem Marked.execve {text : Nat → Nat → Byte} {textPages : Nat} (h : Marked B a s)
    (hstep : processExecvePages (.user a) textPages text s = .ok s') : Marked B a s' := by
  simp only [processExecvePages, bind_eq_ok, Prod.exists] at hstep
  obtain ⟨kTmp, s₁, hf, -, -, s₂, h2, s₃, h3, s₄, h4, s₅, h5, hmap⟩ := hstep
  have hregion : ∀ {u u' start n content}, Marked B a u →
      execPages (.user a) kTmp start n content u = .ok u' → Marked B a u' := by
    intro u u' start n content hu hpages
    refine forRange_keeps ?_ hpages hu
    intro i w w' _ _ hw hstep
    exact hw.execPage (Nat.mod_lt _ (by omega)) hstep
  have h₁ : Marked B a s₁ := by
    rcases findVspace_stores hf with ⟨-, rfl⟩ | ⟨j, -, -, -, -, -, hstores⟩
    · exact h
    · exact h.users (hstores.users a)
  have hstores := (kernelStores_mapPage (T := fun _ => True) (fun _ => trivial) hmap).1
  exact (hregion (hregion (hregion (hregion h₁ h2) h3) h4) h5).users (hstores.users a)

theorem mmapProt_user (edx : Word) : mmapProt edx &&& pageUser ≠ 0#32 := by
  unfold mmapProt
  split <;> decide

/-- **Inversion** for a round of `syscall_mmap_anon`: its page becomes a user page. -/
theorem mmapPage_ok {kptr : Nat} {edx : Word} (h : mmapPage (.user a) kptr v (mmapProt edx) s = .ok s') :
    v % 1024 = 0 ∧ ∃ (u : Vm) (w : Word), u.dirs (.user a) = s.dirs (.user a) ∧ u.HasTable (.user a) (v / 4096 / 1024) ∧
      s' = u.setEntry (.user a) (v / 4096) w ∧ w &&& pageUser ≠ 0#32 := by
  simp only [mmapPage, bind_eq_ok, Prod.exists] at h
  obtain ⟨phys, pmm, -, -, -, -, -, s₁, hmap, s₂, hfill, s₃, hmap', -, -, hstep⟩ := h
  simp only [fillPage, bind_eq_ok, pure_eq_ok] at hfill
  obtain ⟨frame, -, rfl⟩ := hfill
  have h₁ := (kernelStores_mapPage (T := fun _ => True) (fun _ => trivial) hmap).1.users a
  have h₃ := (kernelStores_mapPage (T := fun _ => True) (fun _ => trivial) hmap').1.users a
  obtain ⟨hal, ht, rfl⟩ := mapPage_ok hstep
  exact ⟨hal, s₃, _, h₃.trans h₁, ht, rfl, user_of_or _ (mmapProt_user edx)⟩

/-- **`syscall_mmap_anon`** makes user pages of all that it reserves. -/
theorem Marked.mmap {len edx r : Word} (h : Marked B a s)
    (hstep : syscallMmapAnon (.user a) 0#32 len edx s = .ok (r, s')) : Marked B a s' := by
  unfold syscallMmapAnon at hstep
  split at hstep
  · simp only [pure_eq_ok, Prod.mk.injEq] at hstep
    rw [← hstep.2]
    exact h
  simp only [bind_eq_ok, pure_eq_ok, Prod.exists, Prod.mk.injEq, mmapAddr, if_true] at hstep
  obtain ⟨base, s₁, hfind, kptr, s₂, hf, -, -, s₃, hloop, -, rfl⟩ := hstep
  generalize len.toNat / 4096 = n at hfind hloop
  have hscratch : s₂.dirs (.user a) = s₁.dirs (.user a) := by
    rcases findVspace_stores hf with ⟨-, rfl⟩ | ⟨j, -, -, -, -, -, hstores⟩
    · rfl
    · exact hstores.users a
  obtain ⟨hn, hfit⟩ := findVspace_ok hfind
  rcases hfit with ⟨rfl, -, -⟩ | ⟨j, s₀, -, hj, rfl, -, -, hgrows, hres⟩
  · -- `-1` is not aligned
    obtain ⟨n, rfl⟩ : ∃ k, n = k + 1 := ⟨n - 1, by omega⟩
    simp only [forRange_succ, bind_eq_ok] at hloop
    obtain ⟨u, hfirst, -⟩ := hloop
    exact absurd (mmapPage_ok hfirst).1 (by decide)
  · -- the pages that are not user pages yet are those of the rounds to come
    have hinv := forRange_inv (P := fun i u => Marked (fun m => B m ∨ ∃ k, i ≤ k ∧ k < n ∧ m = (j + k) % 0x100000) a u)
      ?_ hloop ?_
    · intro m hm
      rcases hinv m hm with huser | hB | ⟨k, hk, hlt, -⟩
      · exact .inl huser
      · exact .inr hB
      · omega
    · intro i u u' _ hi hu hstep
      obtain ⟨-, u₁, w, hsame, ht, rfl, hw⟩ := mmapPage_ok hstep
      have hpage : (j * 4096 + i * 4096) % 0x100000000 / 4096 = (j + i) % 0x100000 := by omega
      rw [hpage] at ht ⊢
      intro m hm
      rw [entry_setEntry ht] at hm ⊢
      by_cases hmi : m = (j + i) % 0x100000
      · simp only [hmi, and_self, if_true]
        exact .inl hw
      · simp only [hmi, and_false, if_false] at hm ⊢
        rw [entry_of_dirs hsame] at hm ⊢
        rcases hu m hm with huser | hB | ⟨k, hk, hlt, rfl⟩
        · exact .inl huser
        · exact .inr (.inl hB)
        · have hne : k ≠ i := fun hc => hmi (by rw [hc])
          exact .inr (.inr ⟨k, by omega, hlt, rfl⟩)
    · intro m hm
      rw [entry_of_dirs hscratch, reserveVspace_ok (Nat.mul_mod_left j 4096) hres] at hm ⊢
      have hstop := Nat.mod_lt (j * 4096 + n * 4096) (by omega : 0 < 0x100000000)
      split at hm
      next hrun =>
        obtain ⟨-, hlow, hhigh⟩ := hrun
        refine .inr (.inr ⟨m - j, Nat.zero_le _, ?_, ?_⟩)
        · omega
        · omega
      next hrun =>
        rw [hgrows.same] at hm
        rw [if_neg hrun, hgrows.same]
        exact (h m hm).imp_right .inl

/-- The pages of a table are given back. -/
theorem freePages_keeps {I : Vm → Prop} {k : Nat}
    (hzero : ∀ {s n}, I s → s.HasTable (.user a) (n / 1024) → I (s.setEntry (.user a) n 0#32))
    (hpmm : ∀ {s} pmm, I s → I { s with pmm := pmm }) (h : I s) (hstep : freePages (.user a) k s = .ok s') :
    I s' := by
  unfold freePages at hstep
  split at hstep
  · simp only [bind_eq_ok, assert_eq_ok] at hstep
    obtain ⟨-, ht, hloop⟩ := hstep
    refine (forRange_keeps (I := fun u => I u ∧ u.HasTable (.user a) k) ?_ hloop
      ⟨h, Option.isSome_iff_exists.1 ht⟩).1
    rintro i u u' - hi ⟨hu, htab⟩ hstep
    unfold freePage at hstep
    simp only at hstep
    split at hstep
    · cases hstep
      exact ⟨hu, htab⟩
    · split at hstep
      · simp only [bind_eq_ok, pure_eq_ok] at hstep
        obtain ⟨pmm, -, rfl⟩ := hstep
        rw [setPageAt_eq (by omega)]
        refine ⟨hzero (hpmm pmm hu) ?_, hasTable_setEntry.2 htab⟩
        rw [show (k * 1024 + i) / 1024 = k by omega]
        exact htab
      · simp at hstep
  · simp only [bind_eq_ok, pure_eq_ok] at hstep
    obtain ⟨-, -, rfl⟩ := hstep
    exact h

/-- What survives new tables, zero entries and the return of blocks and references survives an exit. -/
theorem exit_keeps {I : Vm → Prop} {p : Proc} (hp : p.pdir = .user a)
    (halloc : ∀ {s v t s'}, I s → v < 0x100000000 → getTableAlloc (.user a) s v = .ok (t, s') → I s')
    (hzero : ∀ {s n}, I s → s.HasTable (.user a) (n / 1024) → I (s.setEntry (.user a) n 0#32))
    (hpmm : ∀ {s} pmm, I s → I { s with pmm := pmm }) (href : ∀ {s n}, I s → I (setRefcount s (.user a) n))
    (h : I s) (hstep : processExitSpace sh p s = .ok s') : I s' := by
  have hmapZero : ∀ {u u' v}, I u → mapPage u (getTable u v (.user a)) v 0 0#32 = .ok u' → I u' := by
    intro u u' v hu hmap
    obtain ⟨-, ht, rfl⟩ := mapPage_ok hmap
    exact hzero hu ht
  simp only [processExitSpace, hp, bind_eq_ok] at hstep
  obtain ⟨s₁, hunmap, hfree⟩ := hstep
  simp only [processUnmapKstack, bind_eq_ok, assert_eq_ok] at hunmap
  obtain ⟨-, -, hloop⟩ := hunmap
  have h₁ : I s₁ := by
    refine forRange_keeps ?_ hloop h
    intro i u u' _ _ hu hstep
    simp only [unmapKstackPage, bind_eq_ok, assert_eq_ok, Prod.exists] at hstep
    obtain ⟨-, -, t, u₁, ha, -, -, -, -, t', u₂, ha', hmap⟩ := hstep
    rw [← getTableAlloc_getTable kstackAddr_lt ha'] at hmap
    exact hmapZero (halloc (halloc hu kstackAddr_lt ha) kstackAddr_lt ha') hmap
  by_cases hr : (s₁.dirs (.user a)).refcount = 1
  · unfold processPageDirectoryFree at hfree
    rw [if_neg fun hc => hc hr] at hfree
    simp only [bind_eq_ok] at hfree
    obtain ⟨s₂, hdata, s₃, htext, hpages⟩ := hfree
    have hregion : ∀ {u u' start stop}, I u → processUnmapSharedRegion (.user a) start stop u = .ok u' → I u' := by
      intro u u' start stop hu hstep
      simp only [processUnmapSharedRegion, bind_eq_ok, assert_eq_ok] at hstep
      obtain ⟨-, -, hloop⟩ := hstep
      refine forRange_keeps ?_ hloop hu
      intro k w w' _ _ hw hstep
      simp only [bind_eq_ok, Prod.exists] at hstep
      obtain ⟨t, w₁, ha, -, -, -, -, t', w₂, ha', hmap⟩ := hstep
      rw [← getTableAlloc_getTable regionAddr_lt ha'] at hmap
      exact hmapZero (halloc (halloc hw regionAddr_lt ha) regionAddr_lt ha') hmap
    refine forRange_keeps ?_ hpages (hregion (hregion h₁ hdata) htext)
    intro i u u' _ _ hu hstep
    exact freePages_keeps hzero hpmm hu hstep
  · rw [processPageDirectoryFree_held hr hfree]
    exact href h₁

/-- An exit leaves the kernel's pages and the other directories, and only clears entries of its own. -/
theorem exit_leaves {p : Proc} (hp : p.pdir = .user a) (hstep : processExitSpace sh p s = .ok s') :
    Leaves a s s' ∧ (Marked B a s → Marked B a s') := by
  refine ⟨⟨fun m hm => ?_, fun b hb => ?_, ?_⟩, fun h => ?_⟩
  · exact exit_keeps (I := fun u => u.entry .kernel m ≠ 0#32) hp
      (fun hu hv ha => ((kernelUsed_rules a m).tableAlloc hu hv ha).1)
      (fun hu ht => (kernelUsed_rules a m).setUser hu ht trivial) (fun _ hu => hu) (kernelUsed_rules a m).refcount
      hm hstep
  · exact exit_keeps (I := fun u => u.dirs (.user b) = s.dirs (.user b)) hp
      (fun hu hv ha => ((otherDir_rules hb _).tableAlloc hu hv ha).1)
      (fun hu ht => (otherDir_rules hb _).setUser hu ht trivial) (fun _ hu => hu) (otherDir_rules hb _).refcount
      rfl hstep
  · exact exit_keeps (I := fun u => u.nextDir = s.nextDir) hp
      (fun hu hv ha => ((nextDir_rules a _).tableAlloc hu hv ha).1)
      (fun hu ht => (nextDir_rules a _).setUser hu ht trivial) (fun _ hu => hu) (nextDir_rules a _).refcount
      rfl hstep
  · exact exit_keeps hp (fun hu hv ha => hu.alloc hv ha) (fun hu ht => hu.setEntry ht (.inl rfl))
      (fun _ hu => hu.users rfl) (fun hu => hu.same fun m => entry_setRefcount) h hstep

end Marked

/-! ## The assertion -/

section Assertion

variable {sh : SharedRegions} {x : KstackWorld}

/-- The stack of a new process meets only pages that the kernel does not use. -/
theorem kstackFits_of {space : Kernel (DirPtr × Vm)}
    (h : ∀ d s j, space = .ok (d, s) → FreeRun s .kernel j kstackSize → 1 ≤ j → j < 0x100000 →
      (∀ j', 1 ≤ j' → j' < j → ¬ FreeRun s .kernel j' kstackSize) →
      ∃ c, d = .user c ∧ ∀ m, InRun j kstackSize m → s.entry (.user c) m = 0#32) : KstackFits space := by
  intro d s₁ kstack s₂ hspace halloc
  obtain ⟨j, h1, h2, rfl, hfree, hfirst, hstores, -⟩ := taskKstackAlloc_ok halloc
  obtain ⟨c, rfl, hzero⟩ := h d s₁ j hspace hfree h1 h2 hfirst
  apply kstackUnmapped_of_free
  intro m hm
  rw [entry_of_dirs (hstores.users c)]
  exact hzero m hm

theorem freeRun_iff {s : Vm} {j n : Nat} : FreeRun s .kernel j n ↔ ∀ m, InRun j n m → s.entry .kernel m = 0#32 := by
  constructor
  · exact fun h m hm => h.of_inRun hm
  · exact fun h k hk => h _ ⟨k, hk, rfl⟩

/-- **One step**: under the condition the assertion holds. -/
theorem KstackSound.asserted {op : KstackOp} (h : KstackSound sh x) (hlegal : KstackLegal x op)
    (hclear : KstackClear sh x op) : KstackAsserted sh x op := by
  cases op with
  | spawnInit textPages text =>
    refine kstackFits_of fun d s j hspace hfree h1 h2 hfirst => ?_
    obtain ⟨rfl, hpages⟩ := processPageDirectoryNew_pages hspace
    refine ⟨x.vm.nextDir, rfl, fun m hm => ?_⟩
    by_contra hne
    -- a shared page is in use in the kernel directory, before and after
    exact (made_processNew hspace).kernel m (h.shared m (hpages m hne)).1 (hfree.of_inRun hm)
  | clone p flags =>
    obtain ⟨a, ha, hpdir⟩ := h.procs p hlegal
    simp only [KstackClear, hpdir] at hclear
    simp only [KstackAsserted, hpdir]
    refine kstackFits_of fun d s j hspace hfree h1 h2 hfirst => ?_
    obtain ⟨c, rfl, hpages⟩ := cloneSpace_pages ha (h.pages a ha) h.shared hspace
    -- the stack is at the place that was known before
    have hbehind : ∀ i, FreeRun s .kernel i kstackSize ↔ KstackFree x.vm (pagesTaken sh flags (.user a) x.vm) i := by
      intro i
      rw [freeRun_iff]
      exact forall₂_congr fun m hm => cloneSpace_free ha hspace hm.lt
    have hplace : KstackPlace x.vm (pagesTaken sh flags (.user a) x.vm) j :=
      ⟨h1, h2, (hbehind j).1 hfree, fun j' h1' hlt hc => hfirst j' h1' hlt ((hbehind j').2 hc)⟩
    refine ⟨c, rfl, fun m hm => ?_⟩
    by_contra hne
    rcases hpages m hne with ⟨-, huser⟩ | hheld
    · exact huser (hclear j hplace m hm)
    · exact hheld.1 ((hplace.2.2.1 m hm).1)
  | mmapAnon p len edx => trivial
  | exit p => trivial
  | heapAlloc pages => trivial
  | heapFree v pages => trivial

end Assertion

/-! ## Every step keeps the invariant -/

section Steps

variable {sh : SharedRegions} {x x' : KstackWorld} {s s' s₁ s₂ s₃ : Vm} {c : Nat} {B : Nat → Prop}

/-- A directory whose entries are user pages, pages that were held, and pages that are taken now. -/
theorem KstackSound.made (h : KstackSound sh x) (hmade : Made x.vm c s)
    (hpages : Marked (fun m => Held x m ∨ x.vm.entry .kernel m = 0#32 ∧ s.entry .kernel m ≠ 0#32) c s)
    {procs : List Proc} (hprocs : ∀ p ∈ procs, p.pdir = .user c ∨ p ∈ x.procs) :
    KstackSound sh ⟨s, procs, x.heap⟩ := by
  have hheld : ∀ m, Held x m → Held ⟨s, procs, x.heap⟩ m := fun m hm => ⟨hmade.kernel m hm.1, hm.2⟩
  refine ⟨fun p hp => ?_, fun m hm => hheld m (h.shared m hm), fun a ha m hm => ?_,
    fun r hr => ⟨(h.heap r hr).1, fun m hm => hmade.kernel m ((h.heap r hr).2 m hm)⟩, h.apart⟩
  · rcases hprocs p hp with hpdir | hp
    · exact ⟨c, hmade.lt, hpdir⟩
    · obtain ⟨a, ha, hpdir⟩ := h.procs p hp
      exact ⟨a, Nat.lt_of_lt_of_le ha hmade.le, hpdir⟩
  · by_cases hac : a = c
    · subst hac
      rcases hpages m hm with huser | hm | ⟨hzero, hused⟩
      · exact .inl huser
      · exact .inr (hheld m hm)
      · -- the heap has no free pages
        exact .inr ⟨hused, fun r hr hrun => (h.heap r hr).2 m hrun hzero⟩
    · have hsame := entry_of_dirs (hmade.others a hac)
      show s.entry (.user a) m &&& pageUser ≠ 0#32 ∨ _
      rw [hsame m]
      rw [show (KstackWorld.mk s procs x.heap).vm = s from rfl, hsame m] at hm
      exact (h.pages a (hmade.old a ha hac) m hm).imp_right (hheld m)

/-- A kernel stack is taken and entered. -/
theorem kstack_entered {kstack : Word} (h : Marked B c s₁) (halloc : taskKstackAlloc s₁ = .ok (kstack, s₂))
    (hmap : processMapKstack (.user c) kstack s₂ = .ok s₃) : Leaves c s₁ s₃ ∧
      ∃ j, (∀ m, InRun j kstackSize m → s₁.entry .kernel m = 0#32 ∧ s₃.entry .kernel m ≠ 0#32) ∧
        Marked (fun m => B m ∨ InRun j kstackSize m) c s₃ := by
  have hleaves : Leaves c s₂ s₃ := leaves_of_rules fun R hI => R.mapKstack hI hmap
  refine ⟨(leaves_kstackAlloc halloc).trans hleaves, ?_⟩
  obtain ⟨j, -, -, rfl, hfree, -, hstores, hused⟩ := taskKstackAlloc_ok halloc
  refine ⟨j, fun m hm => ⟨hfree.of_inRun hm, hleaves.kernel m (hused m hm)⟩, ?_⟩
  have h₂ : Marked (fun m => B m ∨ InRun j kstackSize m) c s₂ := by
    intro m hm
    rw [entry_of_dirs (hstores.users c)] at hm ⊢
    exact (h m hm).imp_right .inl
  exact h₂.mapKstack (fun i hi => .inr (kstackAddr_inRun hi)) hmap

/-- **A new process**, with or without a directory of its own. -/
theorem KstackSound.process (h : KstackSound sh x) {kstack : Word} (hmade : Made x.vm c s₁)
    (hpages : Marked (Held x) c s₁) (halloc : taskKstackAlloc s₁ = .ok (kstack, s₂))
    (hmap : processMapKstack (.user c) kstack s₂ = .ok s₃) (hleaves : Leaves c s₃ s)
    (hkeep : ∀ B, Marked B c s₃ → Marked B c s) :
    KstackSound sh ⟨s, ⟨.user c, kstack⟩ :: x.procs, x.heap⟩ := by
  obtain ⟨hleaves₁, j, hrun, hmarked⟩ := kstack_entered hpages halloc hmap
  refine h.made (c := c) (hmade.leaves (hleaves₁.trans hleaves)) (fun m hm => ?_) fun p hp => ?_
  · rcases hkeep _ hmarked m hm with huser | hheld | hm
    · exact .inl huser
    · exact .inr (.inl hheld)
    · obtain ⟨hzero, hused⟩ := hrun m hm
      refine .inr (.inr ⟨?_, hleaves.kernel m hused⟩)
      by_contra hne
      exact hmade.kernel m hne hzero
  · rcases List.mem_cons.1 hp with rfl | hp
    · exact .inl rfl
    · exact .inr hp

/-- A step of the heap changes no user directory. -/
theorem KstackSound.stores (h : KstackSound sh x) {T : Nat → Prop} (hstores : KernelStores T x.vm s)
    {heap : List (Nat × Nat)} (hheld : ∀ m, Held x m → Held ⟨s, x.procs, heap⟩ m)
    (hheap : ∀ r ∈ heap, r.1 % 4096 = 0 ∧ ∀ m, InRun (r.1 / 4096) r.2 m → s.entry .kernel m ≠ 0#32)
    (hapart : heap.Pairwise fun r r' => ∀ m, InRun (r.1 / 4096) r.2 m → ¬ InRun (r'.1 / 4096) r'.2 m) :
    KstackSound sh ⟨s, x.procs, heap⟩ := by
  refine ⟨fun p hp => ?_, fun m hm => hheld m (h.shared m hm), fun a ha m hm => ?_, hheap, hapart⟩
  · obtain ⟨a, ha, hpdir⟩ := h.procs p hp
    exact ⟨a, by rw [show (KstackWorld.vm _).nextDir = _ from hstores.nextDir]; exact ha, hpdir⟩
  · have hsame := entry_of_dirs (hstores.users a) m
    show s.entry (.user a) m &&& pageUser ≠ 0#32 ∨ _
    rw [hsame]
    exact (h.pages a (hstores.nextDir ▸ ha) m (hsame ▸ hm)).imp_right (hheld m)

/-- The heap takes free pages. -/
theorem KstackSound.heapAlloc (h : KstackSound sh x) {v pages : Nat} (hstep : liballocAlloc pages x.vm = .ok (v, s)) :
    KstackSound sh ⟨s, x.procs, (v, pages) :: x.heap⟩ := by
  obtain ⟨j, rfl, hrun, hstores⟩ := liballocAlloc_ok hstep
  have hpage : j * 4096 / 4096 = j := Nat.mul_div_cancel j (by omega)
  have hkeep : ∀ m, x.vm.entry .kernel m ≠ 0#32 → ¬ InRun j pages m := fun m hm hc => hm (hrun m hc).1
  have hkernel : ∀ m, x.vm.entry .kernel m ≠ 0#32 → s.entry .kernel m ≠ 0#32 := fun m hm => by
    rw [hstores.kernel m (hkeep m hm)]
    exact hm
  have hheld : ∀ m, Held x m → Held ⟨s, x.procs, (j * 4096, pages) :: x.heap⟩ m := by
    refine fun m hm => ⟨hkernel m hm.1, fun r hr => ?_⟩
    rcases List.mem_cons.1 hr with rfl | hr
    · rw [hpage]
      exact hkeep m hm.1
    · exact hm.2 r hr
  refine h.stores hstores hheld (fun r hr => ?_) ?_
  · rcases List.mem_cons.1 hr with rfl | hr
    · refine ⟨Nat.mul_mod_left j 4096, fun m hm => (hrun m ?_).2⟩
      rwa [hpage] at hm
    · exact ⟨(h.heap r hr).1, fun m hm => hkernel m ((h.heap r hr).2 m hm)⟩
  · refine List.pairwise_cons.2 ⟨fun r hr m hm hc => ?_, h.apart⟩
    rw [hpage] at hm
    exact (h.heap r hr).2 m hc (hrun m hm).1

/-- The heap gives a range back. -/
theorem KstackSound.heapFree (h : KstackSound sh x) {v pages : Nat} (hmem : (v, pages) ∈ x.heap)
    (hstep : liballocFree v pages x.vm = .ok s) : KstackSound sh ⟨s, x.procs, x.heap.erase (v, pages)⟩ := by
  obtain ⟨hal, -⟩ := h.heap _ hmem
  have hv : v = v / 4096 * 4096 := by
    have hal : v % 4096 = 0 := hal
    omega
  rw [hv] at hstep
  have hstores := liballocFree_ok hstep
  have hsub : ∀ r ∈ x.heap.erase (v, pages), r ∈ x.heap := fun r hr => List.mem_of_mem_erase hr
  have hapart := (List.Pairwise.perm h.apart (List.perm_cons_erase hmem)
    fun hR m hm hc => hR m hc hm)
  rw [List.pairwise_cons] at hapart
  have hheld : ∀ m, Held x m → Held ⟨s, x.procs, x.heap.erase (v, pages)⟩ m := by
    refine fun m hm => ⟨?_, fun r hr => hm.2 r (hsub r hr)⟩
    show s.entry .kernel m ≠ 0#32
    rw [hstores.kernel m (hm.2 _ hmem)]
    exact hm.1
  refine h.stores hstores hheld (fun r hr => ⟨(h.heap r (hsub r hr)).1, fun m hm => ?_⟩) hapart.2
  rw [hstores.kernel m fun hc => hapart.1 r hr m hc hm]
  exact (h.heap r (hsub r hr)).2 m hm

/-- **One step.** -/
theorem KstackSound.step {op : KstackOp} (h : KstackSound sh x) (hlegal : KstackLegal x op)
    (hstep : kstackStep sh x op = .ok x') : KstackSound sh x' := by
  cases op with
  | spawnInit textPages text =>
    simp only [kstackStep, processSpawnInit, bind_eq_ok, pure_eq_ok, Prod.exists, Prod.mk.injEq] at hstep
    obtain ⟨p, vm, ⟨d, s₁, hnew, kstack, s₂, halloc, s₃, hmap, s₄, hexec, rfl, rfl⟩, rfl⟩ := hstep
    obtain ⟨rfl, hpages⟩ := processPageDirectoryNew_pages hnew
    exact h.process (made_processNew hnew) (fun m hm => .inr (h.shared m (hpages m hm))) halloc hmap
      (leaves_of_rules fun R hI => R.execve hI hexec) fun B hB => hB.execve hexec
  | clone p flags =>
    obtain ⟨a, ha, hpdir⟩ := h.procs p hlegal
    simp only [kstackStep, processClone, hpdir, bind_eq_ok, pure_eq_ok, Prod.exists, Prod.mk.injEq] at hstep
    obtain ⟨child, vm, ⟨d, s₁, hspace, kstack, s₂, halloc, s₃, hmap, rfl, rfl⟩, rfl⟩ := hstep
    obtain ⟨c, rfl, hpages⟩ := cloneSpace_pages ha (h.pages a ha) h.shared hspace
    exact h.process (made_clone ha hspace) (fun m hm => (hpages m hm).imp_left And.left) halloc hmap
      ⟨fun _ hm => hm, fun _ _ => rfl, rfl⟩ fun B hB => hB
  | mmapAnon p len edx =>
    obtain ⟨a, ha, hpdir⟩ := h.procs p hlegal.1
    simp only [kstackStep, hpdir, bind_eq_ok, pure_eq_ok, Prod.exists] at hstep
    obtain ⟨r, s, hmmap, rfl⟩ := hstep
    have hleaves : Leaves a x.vm s := leaves_of_rules fun R hI => R.mmap hI hmmap
    have hmarked : Marked (Held x) a s := Marked.mmap (h.pages a ha) hmmap
    exact h.made ((made_self ha).leaves hleaves) (fun m hm => (hmarked m hm).imp_right .inl) fun q hq => .inr hq
  | exit p =>
    obtain ⟨a, ha, hpdir⟩ := h.procs p hlegal
    simp only [kstackStep, bind_eq_ok, pure_eq_ok] at hstep
    obtain ⟨s, hexit, rfl⟩ := hstep
    obtain ⟨hleaves, hkeep⟩ := exit_leaves (B := Held x) hpdir hexit
    refine h.made ((made_self ha).leaves hleaves) (fun m hm => ?_) fun q hq => .inr (List.mem_of_mem_erase hq)
    exact (hkeep (h.pages a ha) m hm).imp_right .inl
  | heapAlloc pages =>
    simp only [kstackStep, bind_eq_ok, pure_eq_ok, Prod.exists] at hstep
    obtain ⟨v, s, halloc, rfl⟩ := hstep
    exact h.heapAlloc halloc
  | heapFree v pages =>
    simp only [kstackStep, bind_eq_ok, pure_eq_ok] at hstep
    obtain ⟨s, hfree, rfl⟩ := hstep
    exact h.heapFree hlegal hfree

end Steps

/-- **The assertion of `process_map_kstack` holds in every run** in which no process is cloned while it has a user page
at the place of the next kernel stack. -/
theorem kstack_runs (sh : SharedRegions) (ops : List KstackOp) {x : KstackWorld} (h : KstackSound sh x)
    (hlegal : StepsMeet (kstackStep sh) KstackLegal x ops) (hclear : StepsMeet (kstackStep sh) (KstackClear sh) x ops) :
    StepsMeet (kstackStep sh) (KstackAsserted sh) x ops := by
  induction ops generalizing x with
  | nil => trivial
  | cons op ops ih =>
    refine ⟨h.asserted hlegal.1 hclear.1, fun x' hstep => ?_⟩
    exact ih (h.step hlegal.1 hstep) (hlegal.2 x' hstep) (hclear.2 x' hstep)

/-- Before the first process there is nothing to collide. -/
theorem kstackSound_boot {sh : SharedRegions} {vm : Vm} (hnext : vm.nextDir = 0)
    (hshared : ∀ m, SharedPage sh m → vm.entry .kernel m ≠ 0#32) : KstackSound sh ⟨vm, [], []⟩ := by
  refine ⟨fun p hp => absurd hp List.not_mem_nil, fun m hm => ⟨hshared m hm, fun r hr => absurd hr List.not_mem_nil⟩,
    fun a ha => ?_, fun r hr => absurd hr List.not_mem_nil, List.Pairwise.nil⟩
  have ha : a < vm.nextDir := ha
  omega

/-! ## A process that maps memory where the next stack goes -/

/-- The kernel directory: one shared page, the stack of the first process with its guard pages, its directory and its
five tables. -/
def stackKernelPage (n : Nat) : Word :=
  if n = 0 then 0#32
  else if n = 2 ∨ n = 9 then pageValueGuard
  else if n < 16 then BitVec.ofNat 32 (n * 4096) ||| (pagePresent ||| pageReadwrite)
  else 0#32

/-- The tables of the first process as `process_execve` leaves them: the shared page and its stack, one page of program,
256 pages of heap and of stack, and one of arguments. -/
def stackUserTable (k : Nat) : Option PageTable :=
  if k = 0 then some ⟨11 * 4096, fun i => if i < 10 then stackKernelPage i else 0#32⟩
  else if k = 4 then some ⟨12 * 4096, fun i => if i < 1 then BitVec.ofNat 32 ((16 + i) * 4096) ||| 7#32 else 0#32⟩
  else if k = 8 then some ⟨13 * 4096, fun i => if i < 256 then BitVec.ofNat 32 ((17 + i) * 4096) ||| 7#32 else 0#32⟩
  else if k = 32 then some ⟨14 * 4096, fun i => if i < 256 then BitVec.ofNat 32 ((273 + i) * 4096) ||| 7#32 else 0#32⟩
  else if k = 64 then some ⟨15 * 4096, fun i => if i < 1 then BitVec.ofNat 32 ((529 + i) * 4096) ||| 7#32 else 0#32⟩
  else none

theorem stackVm_size : (1024 : Nat) ≤ 1048575 := by decide

/-- A machine with 1024 blocks, of which 544 are in use, and one process. -/
def stackVm : Vm where
  pmm := ⟨fun i => if i < 17 then 0xFFFFFFFF#32 else 0#32, 1024, stackVm_size⟩
  dirs d := match d with
    | .kernel => ⟨0, fun _ => 1#32, fun k => some ⟨0, fun i => stackKernelPage (k * 1024 + i)⟩, 0, -1⟩
    | .user _ => ⟨10 * 4096, fun k => ((stackUserTable k).map fun t => BitVec.ofNat 32 t.virt ||| 7#32).getD 0#32,
        stackUserTable, 10 * 4096, 1⟩
  nextDir := 1
  frames _ _ := 0#8

/-- That process. -/
def stackProc : Proc := ⟨.user 0, 0x9000#32⟩

def stackWorld : KstackWorld := ⟨stackVm, [stackProc], []⟩

theorem stackUserTable_pages {k : Nat} {t : PageTable} (h : stackUserTable k = some t) (i : Nat) (hi : t.pages i ≠ 0#32) :
    t.pages i &&& pageUser ≠ 0#32 ∨ k = 0 ∧ i < 10 ∧ stackKernelPage i ≠ 0#32 := by
  have huser : ∀ n b : Nat, (if i < n then BitVec.ofNat 32 (b * 4096) ||| 7#32 else 0#32) ≠ 0#32 →
      (if i < n then BitVec.ofNat 32 (b * 4096) ||| 7#32 else 0#32) &&& pageUser ≠ 0#32 := by
    intro n b hne
    split at hne
    next hlt =>
      rw [if_pos hlt]
      exact user_of_or _ (by decide)
    · exact absurd rfl hne
  unfold stackUserTable at h
  split at h
  next hk =>
    cases h
    dsimp only at hi
    split at hi
    next hlt => exact .inr ⟨hk, hlt, hi⟩
    · exact absurd rfl hi
  · split at h
    · cases h; exact .inl (huser _ _ hi)
    · split at h
      · cases h; exact .inl (huser _ _ hi)
      · split at h
        · cases h; exact .inl (huser _ _ hi)
        · split at h
          · cases h; exact .inl (huser _ _ hi)
          · cases h

theorem stackVm_kernel (m : Nat) : stackVm.entry .kernel m = stackKernelPage m := by
  show stackKernelPage (m / 1024 * 1024 + m % 1024) = stackKernelPage m
  rw [Nat.mul_comm, Nat.div_add_mod]

theorem onePage_shared {m : Nat} (h : SharedPage onePage m) : m = 1 := by
  have hdata : regionRounds onePage.startData onePage.stopData = 1 := by decide
  have htext : regionRounds onePage.startText onePage.stopText = 0 := by decide
  rcases h with ⟨k, hk, rfl⟩ | ⟨k, hk, -⟩
  · rw [hdata] at hk
    rw [show k = 0 by omega]
    decide
  · omega

theorem stackWorld_sound : KstackSound onePage stackWorld := by
  have hheld : ∀ m, stackKernelPage m ≠ 0#32 → Held stackWorld m := fun m hm =>
    ⟨by rw [show stackWorld.vm = stackVm from rfl, stackVm_kernel]; exact hm, fun r hr => absurd hr List.not_mem_nil⟩
  refine ⟨fun p hp => ⟨0, by decide, ?_⟩, fun m hm => hheld m ?_, fun a _ m hm => ?_,
    fun r hr => absurd hr List.not_mem_nil, List.Pairwise.nil⟩
  · rw [List.mem_singleton.1 hp]
    rfl
  · rw [onePage_shared hm]
    decide
  · have htables : (stackWorld.vm.dirs (.user a)).tables (m / 1024) = stackUserTable (m / 1024) := rfl
    unfold Vm.entry Vm.pageAt at hm ⊢
    rw [htables] at hm ⊢
    cases ht : stackUserTable (m / 1024) with
    | none =>
      rw [ht] at hm
      exact absurd rfl hm
    | some t =>
      rw [ht] at hm
      dsimp only at hm ⊢
      rcases stackUserTable_pages ht _ hm with huser | ⟨hk, hi, hkernel⟩
      · exact .inl huser
      · rw [show m % 1024 = m by omega] at hkernel
        exact .inr (hheld m hkernel)

/-- The place of a stack that is taken at once, from the pages around it. -/
theorem kstackPlace_eq {vm : Vm} {j p : Nat} (h : KstackPlace vm 0 j) (hp : 1 ≤ p) (hlt : p < 0x100000)
    (hused : ∀ i, i < p → 1 ≤ i → vm.entry .kernel i ≠ 0#32)
    (hfree : ∀ m, InRun p kstackSize m → vm.entry .kernel m = 0#32) : j = p := by
  obtain ⟨h1, h2, hj, hfirst⟩ := h
  rcases Nat.lt_trichotomy j p with hjp | rfl | hjp
  · exact absurd (hj j ⟨0, by decide, by omega⟩).1 (hused j hjp h1)
  · rfl
  · exact absurd (fun m hm => ⟨hfree m hm, .inr (Nat.zero_le _)⟩) (hfirst p hp hjp)

/-- The process maps four pages, and starts a thread. -/
def threadRun : List KstackOp := [.mmapAnon stackProc 0x4000#32 3#32, .clone stackProc cloneFlagsVm]

theorem threadRun_fits : (∃ x, runSteps (kstackStep onePage) stackWorld threadRun = .ok x) ∧
    StepsMeet (kstackStep onePage) (KstackAsserted onePage) stackWorld threadRun := by
  obtain ⟨x, hx, hmem, hused, hfree, huser, hy⟩ : ∃ x,
      kstackStep onePage stackWorld (.mmapAnon stackProc 0x4000#32 3#32) = .ok x ∧ stackProc ∈ x.procs ∧
      (∀ i, i < 16 → 1 ≤ i → x.vm.entry .kernel i ≠ 0#32) ∧
      (∀ k, k < kstackSize → x.vm.entry .kernel ((16 + k) % 0x100000) = 0#32) ∧
      (∀ k, k < kstackSize → x.vm.entry (.user 0) ((16 + k) % 0x100000) &&& pageUser = 0#32) ∧
      ∃ y, kstackStep onePage x (.clone stackProc cloneFlagsVm) = .ok y :=
    ⟨_, rfl, by decide, by decide, by decide, by decide, _, rfl⟩
  obtain ⟨y, hy⟩ := hy
  refine ⟨⟨y, by rw [threadRun, runSteps_cons hx, runSteps_cons hy]; rfl⟩, ?_⟩
  refine kstack_runs onePage threadRun stackWorld_sound ?_ ?_
  · exact stepsMeet_cons ⟨by decide, by decide, by decide, by decide⟩ hx (stepsMeet_cons hmem hy trivial)
  · refine stepsMeet_cons trivial hx (stepsMeet_cons (fun j hj m hm => ?_) hy trivial)
    have hj16 : j = 16 := by
      apply kstackPlace_eq hj (by decide) (by decide) hused
      rintro m ⟨k, hk, rfl⟩
      exact hfree k hk
    subst hj16
    obtain ⟨k, hk, rfl⟩ := hm
    exact huser k hk

/-- The process maps eight pages. -/
def stackRun : List KstackOp := [.mmapAnon stackProc 0x8000#32 3#32, .clone stackProc cloneFlagsVm]

/-- **The next stack collides with them**: its pages 16 and 17 are mapped in the directory of the process. -/
theorem stackRun_collides : KstackSound onePage stackWorld ∧
    StepsMeet (kstackStep onePage) KstackLegal stackWorld stackRun ∧
    ¬ StepsMeet (kstackStep onePage) (KstackAsserted onePage) stackWorld stackRun := by
  obtain ⟨x, hx, hmem, vm₁, hspace, kstack, vm₂, halloc, vm₃, hloop, table, vm₄, htable, hpage⟩ : ∃ x,
      kstackStep onePage stackWorld (.mmapAnon stackProc 0x8000#32 3#32) = .ok x ∧ stackProc ∈ x.procs ∧
      ∃ vm₁, cloneSpace onePage cloneFlagsVm stackProc.pdir x.vm = .ok (.user 0, vm₁) ∧
      ∃ kstack vm₂, taskKstackAlloc vm₁ = .ok (kstack, vm₂) ∧
      ∃ vm₃, forRange (fun i vm => mapKstackPage (.user 0) (kstackAddr kstack i) vm) 0 6 vm₂ = .ok vm₃ ∧
      ∃ table vm₄, getTableAlloc (.user 0) vm₃ (kstackAddr kstack 6) = .ok (table, vm₄) ∧
      getPage vm₄ (some table) (kstackAddr kstack 6) ≠ .ok 0#32 :=
    ⟨_, rfl, by decide, _, rfl, _, _, rfl, _, rfl, _, _, rfl, by decide⟩
  refine ⟨stackWorld_sound, ⟨⟨by decide, by decide, by decide, by decide⟩, fun x' hx' => ⟨?_, fun _ _ => trivial⟩⟩, ?_⟩
  · rw [hx, Except.ok.injEq] at hx'
    rw [← hx']
    exact hmem
  · intro h
    exact hpage ((h.2 x hx).1 _ _ _ _ hspace halloc 6 (by decide) _ _ _ hloop htable)

end Myunix.Process
