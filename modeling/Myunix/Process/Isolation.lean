import Myunix.Process.Clone

/-!
# Isolation of a cloned address space

The invariant `Cloned` relates the machine before `page_directory_new` to the machine after the first `n` pages have been
copied: what was in use is untouched, user pages of the parent below `n` have copies in frames that were free, and the
kernel directory differs at the pages of the child's directory and tables and at the scratch pages in use. Every
statement of the clone keeps it; `fork_isolates` reads the result off it.
-/

namespace Myunix.Process

open Lib Pmm Vmm

/-- Page `m` of the kernel directory is where the kernel sees the directory or a table of `c`. -/
def ChildPage (s : Vm) (c m : Nat) : Prop :=
  (s.dirs (.user c)).physicalTablesVirt = m * 4096 ∨
    ∃ k, s.HasTable (.user c) k ∧ s.tableVirt ⟨.user c, k⟩ = m * 4096

/-- Block `b` is new since `vm` and holds a copy of the frame of `e`. -/
structure CopiedTo (vm s : Vm) (e : Word) (b : Nat) : Prop where
  lt : b < 0x100000
  fresh : vm.pmm.used b = false
  used : s.pmm.used b = true
  contents : s.frames b = vm.frames (frameOf e)

/-- The child's entry for a copy in block `b` of the page with entry `e`. -/
def copyEntry (b : Nat) (e : Word) : Word := BitVec.ofNat 32 (b * 4096) ||| (e &&& 0x3FF#32)

/-- The first `n` pages of `p` have been copied to `c`; `scratch` are the scratch pages in use. -/
structure Cloned (vm : Vm) (p c n : Nat) (scratch : Nat → Prop) (s : Vm) : Prop where
  size : s.pmm.size = vm.pmm.size
  used : ∀ b, vm.pmm.used b = true → s.pmm.used b = true
  others : ∀ b, b ≠ c → s.dirs (.user b) = vm.dirs (.user b)
  frames : ∀ f, vm.pmm.used f = true → s.frames f = vm.frames f
  kernel_same : ∀ m, ¬ ChildPage s c m → ¬ scratch m → s.entry .kernel m = vm.entry .kernel m
  kernel_new : ∀ m, ChildPage s c m → ¬ scratch m ∧ vm.entry .kernel m = 0#32 ∧ s.entry .kernel m ≠ 0#32
  tables : ∀ k, s.HasTable (.user c) k → (s.dirs (.user c)).physicalTables k &&& pagePresent ≠ 0#32
  blank : ∀ m, (m < n → ∀ e, ¬ UserPage vm (.user p) m e) → s.entry (.user c) m = 0#32
  copy : ∀ m e, m < n → UserPage vm (.user p) m e →
    ∃ b, CopiedTo vm s e b ∧ s.entry (.user c) m = copyEntry b e
  inj : ∀ m m', s.entry (.user c) m ≠ 0#32 → s.entry (.user c) m' ≠ 0#32 →
    frameOf (s.entry (.user c) m) = frameOf (s.entry (.user c) m') → m = m'

/-! ## Bits -/

section Bits

variable {e : Word} {b : Nat}

theorem frameOf_copyEntry (hb : b < 0x100000) : frameOf (copyEntry b e) = b := by
  unfold copyEntry
  rw [frameOf_or (flags_shift e), frameOf_ofNat hb]

/-- The flags of a copy are those of the page. -/
theorem copyEntry_flags : copyEntry b e &&& 0x3FF#32 = e &&& 0x3FF#32 := by
  have hlow : BitVec.ofNat 32 (b * 4096) &&& 0x3FF#32 = 0#32 := by
    apply BitVec.eq_of_toNat_eq
    rw [BitVec.toNat_and, BitVec.toNat_ofNat]
    apply (Nat.and_two_pow_sub_one_eq_mod _ 10).trans
    simp only [BitVec.toNat_ofNat]
    omega
  unfold copyEntry
  rw [BitVec.and_or_distrib_right, hlow, BitVec.zero_or, BitVec.and_assoc, BitVec.and_self]

/-- A flag bit of a copy is that of the page. -/
theorem copyEntry_and {f : Word} (hf : f &&& 0x3FF#32 = f) :
    copyEntry b e &&& f = e &&& f := by
  have h := congrArg (· &&& f) (@copyEntry_flags e b)
  simp only [BitVec.and_assoc] at h
  rwa [BitVec.and_comm 0x3FF#32 f, hf] at h

/-- An entry made with the present flag is present. -/
theorem present_of_or (x : Word) {f : Word} (hf : f.getLsbD 0 = true) : (x ||| f) &&& pagePresent ≠ 0#32 := by
  intro h
  have hbit := congrArg (fun w => w.getLsbD 0) h
  simp only [BitVec.getLsbD_and, BitVec.getLsbD_or, hf, Bool.or_true] at hbit
  exact absurd hbit (by decide)

theorem ne_zero_of_present {x : Word} (h : x &&& pagePresent ≠ 0#32) : x ≠ 0#32 := by
  intro hx
  apply h
  rw [hx]
  decide

theorem copyEntry_present (he : e &&& pagePresent ≠ 0#32) : copyEntry b e &&& pagePresent ≠ 0#32 := by
  rw [copyEntry_and (by decide)]
  exact he

end Bits

/-! ## Steps that leave the child alone -/

section Frame

variable {vm s s' : Vm} {p c n : Nat} {scratch touched : Nat → Prop}

theorem entry_of_dirs {d : DirPtr} (h : s'.dirs d = s.dirs d) (m : Nat) : s'.entry d m = s.entry d m := by
  unfold Vm.entry Vm.pageAt
  simp only [h]

theorem hasTable_of_dirs {d : DirPtr} (h : s'.dirs d = s.dirs d) (k : Nat) : s'.HasTable d k ↔ s.HasTable d k := by
  unfold Vm.HasTable
  rw [h]

theorem childPage_of_dirs (h : s'.dirs (.user c) = s.dirs (.user c)) (m : Nat) : ChildPage s' c m ↔ ChildPage s c m := by
  unfold ChildPage Vm.HasTable Vm.tableVirt
  simp only [h]

/-- A step that changes no user directory, no frame in use and no child page keeps the invariant, with the kernel
entries it does change as scratch pages. -/
theorem Cloned.frame (h : Cloned vm p c n scratch s) (hsize : s'.pmm.size = s.pmm.size)
    (hused : ∀ b, s.pmm.used b = true → s'.pmm.used b = true) (hdirs : ∀ b, s'.dirs (.user b) = s.dirs (.user b))
    (hframes : ∀ f, s.pmm.used f = true → s'.frames f = s.frames f)
    (hsame : ∀ m, ¬ ChildPage s c m → ¬ touched m → s'.entry .kernel m = vm.entry .kernel m)
    (hnew : ∀ m, ChildPage s c m → ¬ touched m ∧ s'.entry .kernel m = s.entry .kernel m) :
    Cloned vm p c n touched s' where
  size := hsize.trans h.size
  used b hb := hused b (h.used b hb)
  others b hb := (hdirs b).trans (h.others b hb)
  frames f hf := (hframes f (h.used f hf)).trans (h.frames f hf)
  kernel_same m hc := hsame m (fun hm => hc ((childPage_of_dirs (hdirs c) m).2 hm))
  kernel_new m hc := by
    have hm := (childPage_of_dirs (hdirs c) m).1 hc
    obtain ⟨ht, heq⟩ := hnew m hm
    rw [heq]
    exact ⟨ht, (h.kernel_new m hm).2⟩
  tables k hk := by
    rw [hdirs c]
    exact h.tables k ((hasTable_of_dirs (hdirs c) k).1 hk)
  blank m hm := by
    rw [entry_of_dirs (hdirs c)]
    exact h.blank m hm
  copy m e hm he := by
    obtain ⟨b, hb, hent⟩ := h.copy m e hm he
    refine ⟨b, ⟨hb.lt, hb.fresh, hused b hb.used, (hframes b hb.used).trans hb.contents⟩, ?_⟩
    rw [entry_of_dirs (hdirs c)]
    exact hent
  inj m m' := by
    rw [entry_of_dirs (hdirs c), entry_of_dirs (hdirs c)]
    exact h.inj m m'

/-- Only the kernel's entries of the pages `touched` change. -/
structure KernelOnly (touched : Nat → Prop) (s s' : Vm) : Prop where
  pmm : s'.pmm = s.pmm
  frames : s'.frames = s.frames
  dirs : ∀ b, s'.dirs (.user b) = s.dirs (.user b)
  kernel : ∀ m, ¬ touched m → s'.entry .kernel m = s.entry .kernel m

theorem kernelOnly_setEntry {j : Nat} {w : Word} (ht : s.HasTable .kernel (j / 1024)) :
    KernelOnly (· = j) s (s.setEntry .kernel j w) where
  pmm := rfl
  frames := rfl
  dirs _ := dirs_setEntry_kernel
  kernel m hm := by rw [entry_setEntry ht, if_neg (fun hc => hm hc.2)]

theorem KernelOnly.trans {t u : Nat → Prop} {s'' : Vm} (h : KernelOnly t s s') (h' : KernelOnly u s' s'') :
    KernelOnly (fun m => t m ∨ u m) s s'' where
  pmm := h'.pmm.trans h.pmm
  frames := h'.frames.trans h.frames
  dirs b := (h'.dirs b).trans (h.dirs b)
  kernel m hm := by rw [h'.kernel m (fun hu => hm (Or.inr hu)), h.kernel m (fun ht => hm (Or.inl ht))]

/-- Taking free pages of the kernel directory as scratch pages. -/
theorem Cloned.take (h : Cloned vm p c n (fun _ => False) s) (hk : KernelOnly touched s s')
    (hfree : ∀ m, touched m → s.entry .kernel m = 0#32) :
    Cloned vm p c n touched s' ∧ ∀ m, touched m → vm.entry .kernel m = 0#32 := by
  have hchild : ∀ m, ChildPage s c m → ¬ touched m := fun m hm ht => (h.kernel_new m hm).2.2 (hfree m ht)
  refine ⟨h.frame (by rw [hk.pmm]) (fun b hb => by rw [hk.pmm]; exact hb) hk.dirs (fun f _ => by rw [hk.frames])
    (fun m hc ht => ?_) (fun m hc => ⟨hchild m hc, hk.kernel m (hchild m hc)⟩), fun m ht => ?_⟩
  · rw [hk.kernel m ht]
    exact h.kernel_same m hc (fun hf => hf)
  · rw [← h.kernel_same m (fun hc => hchild m hc ht) (fun hf => hf)]
    exact hfree m ht

/-- Giving the scratch pages back, with the entries they had. -/
theorem Cloned.giveBack (h : Cloned vm p c n scratch s) (hk : KernelOnly scratch s s')
    (hback : ∀ m, scratch m → s'.entry .kernel m = vm.entry .kernel m) :
    Cloned vm p c n (fun _ => False) s' := by
  refine h.frame (by rw [hk.pmm]) (fun b hb => by rw [hk.pmm]; exact hb) hk.dirs (fun f _ => by rw [hk.frames])
    (fun m hc _ => ?_) (fun m hc => ⟨fun hf => hf, hk.kernel m (h.kernel_new m hc).1⟩)
  by_cases hs : scratch m
  · exact hback m hs
  · rw [hk.kernel m hs]
    exact h.kernel_same m hc hs

/-- A new directory without tables, seen at a kernel page that was free. -/
theorem Cloned.start {a : Nat} (hsize : s.pmm.size = vm.pmm.size)
    (hused : ∀ b, vm.pmm.used b = true → s.pmm.used b = true)
    (hdirs : ∀ b, b ≠ c → s.dirs (.user b) = vm.dirs (.user b)) (hframes : s.frames = vm.frames)
    (hkernel : ∀ m, m ≠ a → s.entry .kernel m = vm.entry .kernel m) (hfree : vm.entry .kernel a = 0#32)
    (hnow : s.entry .kernel a ≠ 0#32) (hvirt : (s.dirs (.user c)).physicalTablesVirt = a * 4096)
    (hempty : ∀ k, (s.dirs (.user c)).tables k = none) : Cloned vm p c 0 (fun _ => False) s := by
  have hno : ∀ k, ¬ s.HasTable (.user c) k := by
    rintro k ⟨t, ht⟩
    rw [hempty] at ht
    cases ht
  have hentry : ∀ m, s.entry (.user c) m = 0#32 := by
    intro m
    unfold Vm.entry Vm.pageAt
    simp only [hempty]
  have hchild : ∀ m, ChildPage s c m ↔ m = a := by
    intro m
    unfold ChildPage
    rw [hvirt]
    constructor
    · rintro (hm | ⟨k, hk, -⟩)
      · omega
      · exact absurd hk (hno k)
    · rintro rfl
      exact Or.inl rfl
  refine ⟨hsize, hused, hdirs, fun f _ => by rw [hframes], fun m hc _ => hkernel m fun hm => hc ((hchild m).2 hm),
    fun m hc => ?_, fun k hk => absurd hk (hno k), fun m _ => hentry m, fun m e hm => by omega,
    fun m _ hm => absurd (hentry m) hm⟩
  rw [(hchild m).1 hc]
  exact ⟨fun hf => hf, hfree, hnow⟩

/-- Pages that are not user pages of the parent are passed by. -/
theorem Cloned.skip {n' : Nat} (h : Cloned vm p c n scratch s)
    (hno : ∀ m, n ≤ m → m < n' → ∀ e, ¬ UserPage vm (.user p) m e) (hle : n ≤ n') : Cloned vm p c n' scratch s := by
  refine { h with blank := fun m hm => h.blank m fun hlt e => hm (by omega) e, copy := fun m e hm he => ?_ }
  by_cases hlt : m < n
  · exact h.copy m e hlt he
  · exact absurd he (hno m (by omega) hm e)

/-- An entry of the child is a copy of a user page of the parent. -/
theorem Cloned.copy_of_ne (h : Cloned vm p c n scratch s) {m : Nat} (hne : s.entry (.user c) m ≠ 0#32) :
    ∃ e b, m < n ∧ UserPage vm (.user p) m e ∧ CopiedTo vm s e b ∧ s.entry (.user c) m = copyEntry b e := by
  by_contra hno
  apply hne
  apply h.blank m
  intro hm e he
  obtain ⟨b, hb, hent⟩ := h.copy m e hm he
  exact hno ⟨e, b, hm, he, hb, hent⟩

/-- A copy in a block that no entry of the child names yet is entered. -/
theorem Cloned.store (h : Cloned vm p c n scratch s) {e : Word} {b : Nat} (ht : s.HasTable (.user c) (n / 1024))
    (hu : UserPage vm (.user p) n e) (hb : CopiedTo vm s e b)
    (hdist : ∀ m, s.entry (.user c) m ≠ 0#32 → frameOf (s.entry (.user c) m) ≠ b) :
    Cloned vm p c (n + 1) scratch (s.setEntry (.user c) n (copyEntry b e)) := by
  have hchild : ∀ m, ChildPage (s.setEntry (.user c) n (copyEntry b e)) c m ↔ ChildPage s c m := by
    intro m
    unfold ChildPage
    simp only [hasTable_setEntry, tableVirt_setEntry, physicalTables_setEntry.2]
  have hkernel : ∀ m, (s.setEntry (.user c) n (copyEntry b e)).entry .kernel m = s.entry .kernel m := by
    intro m
    rw [entry_setEntry ht, if_neg (fun hc => by cases hc.1)]
  have hentry : ∀ m, (s.setEntry (.user c) n (copyEntry b e)).entry (.user c) m =
      if m = n then copyEntry b e else s.entry (.user c) m := by
    intro m
    rw [entry_setEntry ht]
    simp only [true_and]
  have hframe := @frameOf_copyEntry e b hb.lt
  refine ⟨h.size, h.used, fun b' hb' => ?_, h.frames, fun m hc => ?_, fun m hc => ?_, fun k hk => ?_, fun m hm => ?_,
    fun m e' hm he' => ?_, fun m m' => ?_⟩
  · rw [dirs_setEntry_of_ne (by simpa using hb')]
    exact h.others b' hb'
  · rw [hkernel]
    exact h.kernel_same m (fun hc' => hc ((hchild m).2 hc'))
  · rw [hkernel]
    exact h.kernel_new m ((hchild m).1 hc)
  · rw [physicalTables_setEntry.1]
    exact h.tables k (hasTable_setEntry.1 hk)
  · have hne : m ≠ n := by
      rintro rfl
      exact hm (Nat.lt_succ_self m) e hu
    rw [hentry, if_neg hne]
    exact h.blank m fun hlt => hm (Nat.lt_succ_of_lt hlt)
  · rw [hentry]
    rcases Nat.lt_succ_iff_lt_or_eq.1 hm with hlt | rfl
    · obtain ⟨b', hb', hent⟩ := h.copy m e' hlt he'
      exact ⟨b', ⟨hb'.lt, hb'.fresh, hb'.used, hb'.contents⟩, by rw [if_neg (by omega)]; exact hent⟩
    · have hee : e' = e := he'.entry.symm.trans hu.entry
      exact ⟨b, by rw [hee]; exact ⟨hb.lt, hb.fresh, hb.used, hb.contents⟩, by rw [if_pos rfl, hee]⟩
  · rw [hentry, hentry]
    intro hm hm' heq
    by_cases h1 : m = n <;> by_cases h2 : m' = n
    · rw [h1, h2]
    · rw [if_pos h1, if_neg h2, hframe] at heq
      rw [if_neg h2] at hm'
      exact absurd heq.symm (hdist m' hm')
    · rw [if_neg h1, if_pos h2, hframe] at heq
      rw [if_neg h1] at hm
      exact absurd heq (hdist m hm)
    · rw [if_neg h1] at hm heq
      rw [if_neg h2] at hm' heq
      exact h.inj m m' hm hm' heq

/-- A new table of the child: its kernel page was free, and its entries are 0 as before. -/
theorem Cloned.addTable (h : Cloned vm p c n (fun _ => False) s) {k phys j : Nat}
    (hadd : TableAdded s c k phys j s') (hk : ¬ s.HasTable (.user c) k) : Cloned vm p c n (fun _ => False) s' := by
  obtain ⟨b, -, -, -, -, hsize, hu⟩ := pmmAllocBlocksSafe_ok hadd.block
  have hused : ∀ b, s.pmm.used b = true → s'.pmm.used b = true := by
    intro b' hb'
    rw [hu, hb', Bool.true_or]
  have htable : ∀ k', s'.HasTable (.user c) k' ↔ k' = k ∨ s.HasTable (.user c) k' := by
    intro k'
    unfold Vm.HasTable
    simp only [hadd.dir]
    by_cases hk' : k' = k
    · simp [hk']
    · simp [hk']
  have hvirt : ∀ k', s'.tableVirt ⟨.user c, k'⟩ = if k' = k then j * 4096 else s.tableVirt ⟨.user c, k'⟩ := by
    intro k'
    unfold Vm.tableVirt
    simp only [hadd.dir]
    by_cases hk' : k' = k
    · rw [hk', Function.update_self, if_pos rfl]
    · rw [Function.update_of_ne hk', if_neg hk']
  have hchild : ∀ m, ChildPage s' c m ↔ ChildPage s c m ∨ m = j := by
    intro m
    unfold ChildPage
    simp only [hadd.dir, htable, hvirt]
    constructor
    · rintro (hm | ⟨k', hk', hm⟩)
      · exact Or.inl (Or.inl hm)
      · by_cases hkk : k' = k
        · rw [if_pos hkk] at hm
          exact Or.inr (by omega)
        · rw [if_neg hkk] at hm
          exact Or.inl (Or.inr ⟨k', hk'.resolve_left hkk, hm⟩)
    · rintro ((hm | ⟨k', hk', hm⟩) | rfl)
      · exact Or.inl hm
      · have hkk : k' ≠ k := by
          rintro rfl
          exact hk hk'
        exact Or.inr ⟨k', Or.inr hk', by rw [if_neg hkk]; exact hm⟩
      · exact Or.inr ⟨k, Or.inl rfl, if_pos rfl⟩
  -- the page was free, so it was not one of the child's
  have hjnot : ¬ ChildPage s c j := fun hc => (h.kernel_new j hc).2.2 hadd.page_free
  have hsame := hadd.entry_same hk
  refine ⟨hsize.trans h.size, fun b hb => hused b (h.used b hb), fun b hb => (hadd.others b hb).trans (h.others b hb),
    fun f hf => by rw [hadd.frames]; exact h.frames f hf, fun m hc hs => ?_, fun m hc => ?_, fun k' hk' => ?_,
    fun m hm => by rw [hsame]; exact h.blank m hm, fun m e hm he => ?_, fun m m' => ?_⟩
  · rw [hchild, not_or] at hc
    rw [hadd.kernel, if_neg hc.2]
    exact h.kernel_same m hc.1 hs
  · rw [hadd.kernel]
    by_cases hmj : m = j
    · rw [if_pos hmj, hmj, ← h.kernel_same j hjnot (fun hf => hf)]
      exact ⟨fun hf => hf, hadd.page_free, ne_zero_of_present (present_of_or _ (by decide))⟩
    · rw [if_neg hmj]
      exact h.kernel_new m (((hchild m).1 hc).resolve_right hmj)
  · simp only [hadd.dir]
    by_cases hkk : k' = k
    · rw [hkk, Function.update_self]
      exact present_of_or _ (by decide)
    · rw [Function.update_of_ne hkk]
      exact h.tables k' (((htable k').1 hk').resolve_left hkk)
  · obtain ⟨b', hb', hent⟩ := h.copy m e hm he
    refine ⟨b', ⟨hb'.lt, hb'.fresh, hused b' hb'.used, ?_⟩, by rw [hsame]; exact hent⟩
    rw [hadd.frames]
    exact hb'.contents
  · rw [hsame, hsame]
    exact h.inj m m'

end Frame

end Myunix.Process
