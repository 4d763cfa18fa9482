import Myunix.Boot.Multiboot

/-!
# What is free when paging is turned on

A block should be handed out only if all of it was reported as available memory and nothing of the kernel, its modules
and the boot information lies in it: `BootSafe`. `bootBlocks_ok` says which blocks are free when `kmain` reaches
`vmm_init`: those that some available region's loop visited (`Freed`) and no reservation (`Marked`).

The loops step by a whole block from the first byte of their range. The loop over an available region so frees its first
and last block even if the region holds only a part of them, and a reservation can leave out the last block of its
range; the loop over a module's command line visits other addresses altogether. `boot_blocks_safe_iff` says that these
blocks decide it.
-/

namespace Myunix.Boot

open Lib Pmm

/-! ## Loops over addresses -/

section Visits

variable {start stop i c : Nat} {p q : BlockMap} {is : List Nat}

theorem mem_visits : i ∈ visits start stop ↔ start ≤ i ∧ i < stop ∧ (i - start) % 4096 = 0 := by
  unfold visits
  rw [List.mem_map]
  constructor
  · rintro ⟨k, hk, rfl⟩
    rw [List.mem_range] at hk
    omega
  · rintro ⟨h1, h2, h3⟩
    refine ⟨(i - start) / 4096, ?_, by omega⟩
    rw [List.mem_range]
    omega

/-- Every block from that of `start` on that ends before `stop` is visited. -/
theorem visits_cover (h1 : start / 4096 ≤ c) (h2 : c < stop / 4096) : ∃ i ∈ visits start stop, i / 4096 = c :=
  ⟨start + (c - start / 4096) * 4096, mem_visits.2 ⟨by omega, by omega, by omega⟩, by omega⟩

/-- Some visited address lies in block `c`. -/
def Visited (is : List Nat) (c : Nat) : Prop := ∃ i ∈ is, i / 4096 = c

instance (is : List Nat) (c : Nat) : Decidable (Visited is c) := List.decidableBEx _ _

theorem visited_cons : Visited (i :: is) c ↔ i / 4096 = c ∨ Visited is c := by
  simp [Visited]

theorem visited_append {js : List Nat} : Visited (is ++ js) c ↔ Visited is c ∨ Visited js c := by
  simp [Visited, or_and_right, exists_or]

theorem setBlocks_visited (h : setBlocks is p = .ok q) :
    q.size = p.size ∧ ∀ c, q.used c = (p.used c || decide (Visited is c)) := by
  induction is generalizing p with
  | nil =>
    simp only [setBlocks, Except.ok.injEq] at h
    subst h
    exact ⟨rfl, fun c => by simp [Visited]⟩
  | cons i is ih =>
    simp only [setBlocks, bind_eq_ok] at h
    obtain ⟨u, hu, h⟩ := h
    obtain ⟨-, hs, hused⟩ := pmmSetBlock_ok hu
    obtain ⟨hs', hused'⟩ := ih h
    refine ⟨hs'.trans hs, fun c => ?_⟩
    have hiff : decide (Visited (i :: is) c) = (decide (c = i / 4096) || decide (Visited is c)) := by
      rw [← Bool.decide_or, decide_eq_decide, visited_cons, eq_comm]
    rw [hused', hused, hiff, Bool.or_assoc]

theorem unsetBlocks_visited (h : unsetBlocks is p = .ok q) :
    q.size = p.size ∧ (∀ c, q.used c = (p.used c && !decide (Visited is c))) ∧ ∀ c, Visited is c → c < p.size := by
  induction is generalizing p with
  | nil =>
    simp only [unsetBlocks, Except.ok.injEq] at h
    subst h
    exact ⟨rfl, fun c => by simp [Visited], fun c => by simp [Visited]⟩
  | cons i is ih =>
    simp only [unsetBlocks, bind_eq_ok] at h
    obtain ⟨u, hu, h⟩ := h
    obtain ⟨hlt, hs, hused⟩ := pmmUnsetBlock_ok hu
    obtain ⟨hs', hused', hlt'⟩ := ih h
    refine ⟨hs'.trans hs, fun c => ?_, fun c hc => ?_⟩
    · have hiff : decide (Visited (i :: is) c) = (decide (c = i / 4096) || decide (Visited is c)) := by
        rw [← Bool.decide_or, decide_eq_decide, visited_cons, eq_comm]
      rw [hused', hused, hiff, Bool.not_or, Bool.and_assoc]
    · rcases visited_cons.1 hc with rfl | hc
      · exact hlt
      · rw [← hs]
        exact hlt' c hc

end Visits

/-! ## What is freed and what is marked -/

/-- The entries of the memory map whose blocks are freed. -/
def freedEntries : List MmapEntry → List MmapEntry
  | [] => []
  | e :: es =>
    if e.type = multibootMemoryAvailable then
      if e.addr >>> 32 ≠ 0#64 then freedEntries es else e :: freedEntries es
    else if e.type = 0#32 then []
    else freedEntries es

/-- Some available region's loop visits block `c`. -/
def Freed (entries : List MmapEntry) (c : Nat) : Prop := Visited ((freedEntries entries).flatMap MmapEntry.visits) c

/-- `real_end` behind the modules from number `i` on. -/
def lastEnd (boot : MultibootInfo) : List BootModule → Nat → Word → Word
  | [], _, realEnd => realEnd
  | m :: ms, i, realEnd => lastEnd boot ms (i + 1) (moveEnd boot i m realEnd)

/-- `real_end` when `pmm_init` is called. -/
def imageEnd (img : Image) (boot : MultibootInfo) : Word := roundEnd (lastEnd boot boot.modules 0 img.stop)

/-- The visits of the loop over the modules. -/
def moduleVisits (boot : MultibootInfo) : List BootModule → Nat → List Nat
  | [], _ => []
  | m :: ms, i => (boot.modAddr i).toNat :: (m.cmdline.modVisits ++ m.visits) ++ moduleVisits boot ms (i + 1)

/-- The visits of all reservations but that of the block map. -/
def reservedVisits (img : Image) (boot : MultibootInfo) : List Nat :=
  visits img.start.toNat (imageEnd img boot).toNat ++ [0, boot.mbi.toNat] ++ (cmdlines boot).flatMap BootString.visits ++
    moduleVisits boot boot.modules 0 ++ mmapVisits boot ++ (names boot).flatMap BootString.visits

/-- Block `c` is marked by some reservation. -/
def Marked (img : Image) (boot : MultibootInfo) (entries : List MmapEntry) (c : Nat) : Prop :=
  InRange ((imageEnd img boot).toNat / 4096) (reserveRounds (blockMapSize (memAvail boot entries))) c ∨
    Visited (reservedVisits img boot) c

/-! ## What should be free -/

/-- Every byte of block `c` is in a region reported as available. -/
def BlockAvailable (entries : List MmapEntry) (c : Nat) : Prop :=
  ∀ a, c * 4096 ≤ a → a < (c + 1) * 4096 →
    ∃ e ∈ entries, e.type = multibootMemoryAvailable ∧ e.addr.toNat ≤ a ∧ a < e.addr.toNat + e.len.toNat

/-- The range has a byte in block `c`. -/
def Range.Meets (r : Range) (c : Nat) : Prop := r.lo < r.hi ∧ r.lo < (c + 1) * 4096 ∧ c * 4096 < r.hi

/-- What has a reservation of its own bytes: block 0, the kernel image, the structure at `mbi`, the memory map, the
modules, the command line and the name of the boot loader. -/
def keptRanges (img : Image) (boot : MultibootInfo) : List Range :=
  [⟨0, 4096⟩, ⟨img.start.toNat, img.stop.toNat⟩, mbiRange boot, mmapRange boot] ++
    boot.modules.map (fun m => ⟨m.modStart.toNat, m.modEnd.toNat⟩) ++ (cmdlines boot ++ names boot).map BootString.range

/-- A block is free only if it is available and meets nothing that is to be kept. -/
def BootSafe (img : Image) (boot : MultibootInfo) (entries : List MmapEntry) (q : BlockMap) : Prop :=
  ∀ c < q.size, q.used c = false → BlockAvailable entries c ∧
    (∀ r ∈ keptRanges img boot, ¬ r.Meets c) ∧ ∀ s ∈ modCmdlines boot, ¬ s.range.Meets c

/-- The condition on the boot information: the first and the last block freed for a region are wholly available or
marked, and of what is to be kept, the last block of each range and every block of a module's command line is marked or
not freed. -/
structure BootFits (img : Image) (boot : MultibootInfo) (entries : List MmapEntry) : Prop where
  regions : ∀ e ∈ freedEntries entries, 0 < e.len.toNat →
    ∀ c, c = e.addr.toNat / 4096 ∨ c = e.addr.toNat / 4096 + (e.len.toNat - 1) / 4096 →
      BlockAvailable entries c ∨ Marked img boot entries c
  lasts : ∀ r ∈ keptRanges img boot, r.lo < r.hi → Freed entries ((r.hi - 1) / 4096) →
    Marked img boot entries ((r.hi - 1) / 4096)
  modCmdlines : ∀ s ∈ modCmdlines boot, ∀ c, s.range.Meets c → Freed entries c → Marked img boot entries c

/-! ## The effect of the loops -/

section Effect

variable {img : Image} {boot : MultibootInfo} {entries : List MmapEntry} {p q : BlockMap} {words : Nat → Word}

instance (entries : List MmapEntry) (c : Nat) : Decidable (Freed entries c) := inferInstanceAs (Decidable (Visited _ _))

theorem freed_cons {e : MmapEntry} {es : List MmapEntry} {c : Nat} (ht : e.type = multibootMemoryAvailable)
    (ha : ¬ e.addr >>> 32 ≠ 0#64) : Freed (e :: es) c ↔ Visited e.visits c ∨ Freed es c := by
  unfold Freed
  rw [freedEntries, if_pos ht, if_neg ha, List.flatMap_cons, visited_append]

/-- The loop over the memory map clears the bits of what it visits, which are blocks of the map. -/
theorem freeEntries_ok (h : freeEntries entries p = .ok q) :
    q.size = p.size ∧ (∀ c, q.used c = (p.used c && !decide (Freed entries c))) ∧
      ∀ c, Freed entries c → c < p.size := by
  induction entries generalizing p with
  | nil =>
    simp only [freeEntries, Except.ok.injEq] at h
    subst h
    exact ⟨rfl, fun c => by simp [Freed, freedEntries, Visited], fun c => by simp [Freed, freedEntries, Visited]⟩
  | cons e es ih =>
    unfold freeEntries at h
    split at h
    · rename_i ht
      split at h
      · rename_i ha
        have hsame : ∀ c, Freed (e :: es) c ↔ Freed es c := fun c => by
          unfold Freed
          rw [freedEntries, if_pos ht, if_pos ha]
        simp only [hsame]
        exact ih h
      · rename_i ha
        simp only [bind_eq_ok] at h
        obtain ⟨u, hu, h⟩ := h
        obtain ⟨hs, hused, hlt⟩ := unsetBlocks_visited hu
        obtain ⟨hs', hused', hlt'⟩ := ih h
        refine ⟨hs'.trans hs, fun c => ?_, fun c hc => ?_⟩
        · have hiff : decide (Freed (e :: es) c) = (decide (Visited e.visits c) || decide (Freed es c)) := by
            rw [← Bool.decide_or, decide_eq_decide, freed_cons ht ha]
          rw [hused', hused, hiff, Bool.not_or, Bool.and_assoc]
        · rcases (freed_cons ht ha).1 hc with hc | hc
          · exact hlt c hc
          · rw [← hs]
            exact hlt' c hc
    · rename_i ht
      split at h
      · rename_i h0
        have hnone : ∀ c, ¬ Freed (e :: es) c := fun c => by
          unfold Freed
          rw [freedEntries, if_neg ht, if_pos h0]
          simp [Visited]
        simp only [Except.ok.injEq] at h
        subst h
        exact ⟨rfl, fun c => by rw [decide_eq_false (hnone c), Bool.not_false, Bool.and_true], fun c hc =>
          absurd hc (hnone c)⟩
      · rename_i h0
        have hsame : ∀ c, Freed (e :: es) c ↔ Freed es c := fun c => by
          unfold Freed
          rw [freedEntries, if_neg ht, if_neg h0]
        simp only [hsame]
        exact ih h

theorem extendEnd_ok {ms : List BootModule} {i : Nat} {e e' : Word} (h : extendEnd boot ms i e = .ok e') :
    e' = lastEnd boot ms i e := by
  induction ms generalizing i e with
  | nil =>
    simp only [extendEnd, Except.ok.injEq] at h
    exact h.symm
  | cons m ms ih =>
    simp only [extendEnd, bind_eq_ok, assert_eq_ok] at h
    obtain ⟨-, -, h⟩ := h
    exact ih h

/-- The loop over the modules sets the bits of what it visits. -/
theorem setModules_ok {ms : List BootModule} {i : Nat} (h : setModules boot ms i p = .ok q) :
    q.size = p.size ∧ ∀ c, q.used c = (p.used c || decide (Visited (moduleVisits boot ms i) c)) := by
  induction ms generalizing i p with
  | nil =>
    simp only [setModules, Except.ok.injEq] at h
    subst h
    exact ⟨rfl, fun c => by simp [moduleVisits, Visited]⟩
  | cons m ms ih =>
    simp only [setModules, bind_eq_ok, assert_eq_ok] at h
    obtain ⟨u, hu, -, -, w, hw, h⟩ := h
    obtain ⟨hs, hused⟩ := setBlocks_visited hu
    obtain ⟨hs', hused'⟩ := setBlocks_visited hw
    obtain ⟨hs'', hused''⟩ := ih h
    refine ⟨(hs''.trans hs').trans hs, fun c => ?_⟩
    rw [hused'', hused', hused, moduleVisits, Bool.or_assoc, Bool.or_assoc, ← Bool.decide_or, ← Bool.decide_or,
      ← List.cons_append]
    simp only [visited_append, or_assoc]

/-- **The block map at `vmm_init`**: a block is free exactly when it was freed and is not marked. -/
theorem bootBlocks_ok (h : bootBlocks img boot words entries = .ok q) :
    q.size = blockMapSize (memAvail boot entries) ∧ (∀ c, Freed entries c → c < q.size) ∧
      (∀ c < q.size, q.used c = false ↔ Freed entries c ∧ ¬ Marked img boot entries c) ∧
      imageEnd img boot ≠ 0#32 ∧ boot.Has multibootInfoMemMap := by
  simp only [bootBlocks, bind_eq_ok, assert_eq_ok] at h
  obtain ⟨e, he, -, hend, p₀, h0, -, -, -, hmap, p₁, h1, -, -, p₂, h2, p₃, h3, p₄, h4, p₅, h5, p₆, h6, p₇, h7, p₈, h8,
    h9⟩ := h
  obtain rfl := extendEnd_ok he
  simp only [setName, bind_eq_ok, assert_eq_ok] at h9
  obtain ⟨-, -, h9⟩ := h9
  have hr : (imageEnd img boot).toNat = (imageEnd img boot).toNat / 4096 * 4096 := by
    unfold imageEnd
    rw [roundEnd_toNat]
    omega
  obtain ⟨s0, u0⟩ := pmmInit_used h0
  obtain ⟨s1, u1, hlt⟩ := freeEntries_ok h1
  obtain ⟨s2, u2⟩ := setBlocks_visited h2
  obtain ⟨s3, -, u3⟩ := reserveBlockMap_ok hr h3
  obtain ⟨-, s4, u4⟩ := pmmSetBlock_ok h4
  obtain ⟨-, s5, u5⟩ := pmmSetBlock_ok h5
  obtain ⟨s6, u6⟩ := setBlocks_visited h6
  obtain ⟨s7, u7⟩ := setModules_ok h7
  obtain ⟨s8, u8⟩ := setBlocks_visited h8
  obtain ⟨s9, u9⟩ := setBlocks_visited h9
  have hsize : q.size = p₀.size := by omega
  refine ⟨hsize.trans s0, fun c hc => hsize ▸ hlt c hc, fun c hc => ?_, hend, hmap⟩
  have hp2 : p₂.size = blockMapSize (memAvail boot entries) := by omega
  rw [u9, u8, u7, u6, u5, u4, u3, u2, u1, u0 c (by omega), hp2]
  unfold Marked reservedVisits
  simp only [visited_append, visited_cons, Bool.true_and, Bool.or_eq_false_iff, Bool.not_eq_false', decide_eq_true_eq,
    decide_eq_false_iff_not, not_or]
  have h0 : 0 / 4096 = c ↔ c = 0 := by omega
  have hnil : ¬ Visited [] c := by simp [Visited]
  rw [h0, eq_comm (a := boot.mbi.toNat / 4096)]
  unfold imageEnd
  tauto

end Effect

/-! ## The blocks that decide it -/

section Decide

variable {img : Image} {boot : MultibootInfo} {entries : List MmapEntry} {q : BlockMap} {words : Nat → Word} {c : Nat}

theorem mem_freedEntries {e : MmapEntry} (h : e ∈ freedEntries entries) :
    e ∈ entries ∧ e.type = multibootMemoryAvailable := by
  induction entries with
  | nil => cases h
  | cons e' es ih =>
    have hcons : e ∈ freedEntries es → e ∈ e' :: es ∧ e.type = multibootMemoryAvailable := fun h =>
      ⟨List.mem_cons_of_mem _ (ih h).1, (ih h).2⟩
    unfold freedEntries at h
    split at h
    · rename_i ht
      split at h
      · exact hcons h
      · rcases List.mem_cons.1 h with rfl | h
        · exact ⟨List.mem_cons_self, ht⟩
        · exact hcons h
    · split at h
      · cases h
      · exact hcons h

theorem freed_iff : Freed entries c ↔ ∃ e ∈ freedEntries entries, Visited e.visits c := by
  unfold Freed Visited
  constructor
  · rintro ⟨i, hi, rfl⟩
    obtain ⟨e, he, hie⟩ := List.mem_flatMap.1 hi
    exact ⟨e, he, i, hie, rfl⟩
  · rintro ⟨e, he, i, hi, rfl⟩
    exact ⟨i, List.mem_flatMap.2 ⟨e, he, hi⟩, rfl⟩

/-- A block freed for a region is wholly in it, unless it is the first or the last one. -/
theorem region_block {e : MmapEntry} (he : e ∈ freedEntries entries) (hc : Visited e.visits c) :
    0 < e.len.toNat ∧ (BlockAvailable entries c ∨ c = e.addr.toNat / 4096 ∨
      c = e.addr.toNat / 4096 + (e.len.toNat - 1) / 4096) := by
  obtain ⟨i, hi, rfl⟩ := hc
  obtain ⟨h1, h2, h3⟩ := mem_visits.1 hi
  obtain ⟨hmem, ht⟩ := mem_freedEntries he
  refine ⟨by omega, ?_⟩
  by_cases hedge : i / 4096 = e.addr.toNat / 4096 ∨ i / 4096 = e.addr.toNat / 4096 + (e.len.toNat - 1) / 4096
  · exact Or.inr hedge
  · exact Or.inl fun a ha ha' => ⟨e, hmem, ht, by omega, by omega⟩

/-- Both are freed. -/
theorem region_edges_freed {e : MmapEntry} (he : e ∈ freedEntries entries) (hlen : 0 < e.len.toNat)
    (hc : c = e.addr.toNat / 4096 ∨ c = e.addr.toNat / 4096 + (e.len.toNat - 1) / 4096) : Freed entries c := by
  rw [freed_iff]
  refine ⟨e, he, ?_⟩
  rcases hc with rfl | rfl
  · exact ⟨e.addr.toNat, mem_visits.2 ⟨by omega, by omega, by omega⟩, rfl⟩
  · exact ⟨e.addr.toNat + (e.len.toNat - 1) / 4096 * 4096, mem_visits.2 ⟨by omega, by omega, by omega⟩, by omega⟩

theorem le_moveEnd {i : Nat} {m : BootModule} {e : Word} : e ≤ moveEnd boot i m e := by
  unfold moveEnd
  simp only [BitVec.le_def]
  split <;> split <;> simp only [BitVec.lt_def] at * <;> omega

theorem le_lastEnd {ms : List BootModule} {i : Nat} {e : Word} : e ≤ lastEnd boot ms i e := by
  induction ms generalizing i e with
  | nil => exact BitVec.le_refl e
  | cons m ms ih => exact BitVec.le_trans le_moveEnd ih

/-- `real_end` is behind the kernel image, unless rounding it up has wrapped to 0. -/
theorem stop_le_imageEnd (h : imageEnd img boot ≠ 0#32) : img.stop.toNat ≤ (imageEnd img boot).toNat := by
  have hle : img.stop ≤ lastEnd boot boot.modules 0 img.stop := le_lastEnd
  have hpos : (imageEnd img boot).toNat ≠ 0 := fun h0 => h (BitVec.eq_of_toNat_eq h0)
  unfold imageEnd at hpos ⊢
  rw [roundEnd_toNat, BitVec.toNat_add, BitVec.toNat_ofNat] at hpos ⊢
  rw [BitVec.le_def] at hle
  omega

/-- When anything is freed, the memory map does not wrap around the address space. -/
theorem mmapStop_toNat {fuel : Nat} (hwalk : boot.mmapWalk fuel boot.mmapAddr = some entries) (hc : Freed entries c) :
    boot.mmapStop.toNat = boot.mmapAddr.toNat + boot.mmapLength.toNat := by
  have hlt : boot.mmapAddr < boot.mmapStop := by
    cases fuel with
    | zero => cases hwalk
    | succ fuel =>
      unfold MultibootInfo.mmapWalk at hwalk
      split at hwalk
      · assumption
      · cases hwalk
        exact absurd hc (by simp [Freed, freedEntries, Visited])
  have h1 := boot.mmapLength.isLt
  unfold MultibootInfo.mmapStop at hlt ⊢
  rw [BitVec.lt_def, BitVec.toNat_add] at hlt
  rw [BitVec.toNat_add]
  omega

/-- The first byte of a range that meets a block before its last one is in or before that block. -/
theorem Range.Meets.bounds {r : Range} (h : r.Meets c) (hlast : c ≠ (r.hi - 1) / 4096) :
    r.lo / 4096 ≤ c ∧ c < (r.hi - 1) / 4096 := by
  obtain ⟨h1, h2, h3⟩ := h
  omega

theorem module_visited {ms : List BootModule} {m : BootModule} {i : Nat} (hm : m ∈ ms) (hc : Visited m.visits c) :
    Visited (moduleVisits boot ms i) c := by
  induction ms generalizing i with
  | nil => cases hm
  | cons m' ms ih =>
    rw [moduleVisits, visited_append, visited_cons, visited_append]
    rcases List.mem_cons.1 hm with rfl | hm
    · exact Or.inl (Or.inr (Or.inr hc))
    · exact Or.inr (ih hm)

theorem string_visited {ss : List BootString} {s : BootString} (hs : s ∈ ss) (hc : Visited s.visits c) :
    Visited (ss.flatMap BootString.visits) c := by
  obtain ⟨i, hi, rfl⟩ := hc
  exact ⟨i, List.mem_flatMap.2 ⟨s, hs, hi⟩, rfl⟩

/-- A string's loop visits all its blocks but the last. -/
theorem BootString.visited {s : BootString} (h : s.range.Meets c) (hlast : c ≠ (s.range.hi - 1) / 4096) :
    Visited s.visits c := by
  obtain ⟨h1, h2⟩ := h.bounds hlast
  exact visits_cover h1 h2

/-- **The reservations** mark every block of what is to be kept but the last of each range. -/
theorem kept_visited (hend : imageEnd img boot ≠ 0#32) (hmap : boot.Has multibootInfoMemMap)
    (hstop : boot.mmapStop.toNat = boot.mmapAddr.toNat + boot.mmapLength.toNat) {r : Range}
    (hr : r ∈ keptRanges img boot) (hc : r.Meets c) (hlast : c ≠ (r.hi - 1) / 4096) :
    Visited (reservedVisits img boot) c := by
  obtain ⟨h1, h2⟩ := hc.bounds hlast
  have hend' := stop_le_imageEnd hend
  unfold reservedVisits
  simp only [visited_append]
  unfold keptRanges at hr
  rcases List.mem_append.1 hr with hr | hr
  · rcases List.mem_append.1 hr with hr | hr
    · simp only [List.mem_cons, List.not_mem_nil, or_false] at hr
      rcases hr with rfl | rfl | rfl | rfl
      · simp only at h1 h2
        omega
      · -- the kernel image
        simp only at h1 h2
        exact Or.inl (Or.inl (Or.inl (Or.inl (Or.inl (visits_cover h1 (by omega))))))
      · -- the structure at `mbi` has at most two blocks
        simp only [mbiRange, multibootInfoSize] at h1 h2
        refine Or.inl (Or.inl (Or.inl (Or.inl (Or.inr ⟨boot.mbi.toNat, by simp, by omega⟩))))
      · simp only [mmapRange] at h1 h2
        refine Or.inl (Or.inr ?_)
        unfold mmapVisits
        rw [if_pos hmap, hstop]
        exact visits_cover h1 (by omega)
    · obtain ⟨m, hm, rfl⟩ := List.mem_map.1 hr
      simp only at h1 h2
      exact Or.inl (Or.inl (Or.inr (module_visited hm (visits_cover h1 (by omega)))))
  · obtain ⟨s, hs, rfl⟩ := List.mem_map.1 hr
    rcases List.mem_append.1 hs with hs | hs
    · exact Or.inl (Or.inl (Or.inl (Or.inr (string_visited hs (s.visited hc hlast)))))
    · exact Or.inr (string_visited hs (s.visited hc hlast))

end Decide

/-- **Boot memory.** When `kmain` reaches `vmm_init`, every free block is wholly available memory and meets nothing that
is to be kept, exactly when the boot information meets the condition. -/
theorem boot_blocks_safe_iff (img : Image) (boot : MultibootInfo) (words : Nat → Word) (fuel : Nat)
    (entries : List MmapEntry) (q : BlockMap) (hwalk : boot.mmapWalk fuel boot.mmapAddr = some entries)
    (h : bootBlocks img boot words entries = .ok q) :
    BootSafe img boot entries q ↔ BootFits img boot entries := by
  obtain ⟨-, hlt, hfree, hend, hmap⟩ := bootBlocks_ok h
  constructor
  · intro hsafe
    have hunmarked : ∀ c, Freed entries c → ¬ Marked img boot entries c → BlockAvailable entries c ∧
        (∀ r ∈ keptRanges img boot, ¬ r.Meets c) ∧ ∀ s ∈ modCmdlines boot, ¬ s.range.Meets c :=
      fun c hc hm => hsafe c (hlt c hc) ((hfree c (hlt c hc)).2 ⟨hc, hm⟩)
    refine ⟨fun e he hlen c hc => ?_, fun r hr hne hc => ?_, fun s hs c hmeet hc => ?_⟩
    · by_contra hno
      rw [not_or] at hno
      exact hno.1 (hunmarked c (region_edges_freed he hlen hc) hno.2).1
    · by_contra hno
      exact (hunmarked _ hc hno).2.1 r hr ⟨hne, by omega, by omega⟩
    · by_contra hno
      exact (hunmarked c hc hno).2.2 s hs hmeet
  · intro hfits c hc hused
    obtain ⟨hfreed, hm⟩ := (hfree c hc).1 hused
    refine ⟨?_, fun r hr hmeet => ?_, fun s hs hmeet => hm (hfits.modCmdlines s hs c hmeet hfreed)⟩
    · obtain ⟨e, he, hv⟩ := freed_iff.1 hfreed
      obtain ⟨hlen, hav | hedge⟩ := region_block he hv
      · exact hav
      · exact (hfits.regions e he hlen c hedge).resolve_right hm
    · by_cases hlast : c = (r.hi - 1) / 4096
      · rw [hlast] at hm hfreed
        exact hm (hfits.lasts r hr hmeet.1 hfreed)
      · exact hm (Or.inr (kept_visited hend hmap (mmapStop_toNat hwalk hfreed) hr hmeet hlast))

/-! ## Two memory maps -/

/-- A kernel of 64 KiB at 1 MiB. -/
def smallImage : Image := ⟨0x100000#32, 0x110000#32⟩

/-- The first of two regions, from address 0 on. -/
def lowRegion (len : BitVec 64) : MmapEntry := ⟨20#32, 0#64, len, 1#32⟩

/-- The second one, of 512 KiB at 1 MiB. -/
def highRegion : MmapEntry := ⟨20#32, 0x100000#64, 0x80000#64, 1#32⟩

/-- No string. -/
def noString : BootString := ⟨0#32, 0, by decide⟩

/-- Boot information that has a memory map of these two regions and nothing else. -/
def twoRegions (len : BitVec 64) : MultibootInfo where
  mbi := 0x9000#32
  flags := multibootInfoMemMap
  memUpper := 0#32
  cmdline := noString
  modsAddr := 0#32
  mods := []
  mmapAddr := 0x9100#32
  mmapLength := 48#32
  entryAt a := if a = 0x9100#32 then lowRegion len else highRegion
  bootLoaderName := noString

theorem twoRegions_walk (len : BitVec 64) :
    (twoRegions len).mmapWalk 3 (twoRegions len).mmapAddr = some [lowRegion len, highRegion] := by
  simp [MultibootInfo.mmapWalk, MultibootInfo.mmapStop, twoRegions, lowRegion, highRegion]

/-- A map of whole blocks: what is free is available. -/
theorem boot_blocks_safe_whole : ∃ q, bootBlocks smallImage (twoRegions 0xA0000#64) (fun _ => 0#32)
      [lowRegion 0xA0000#64, highRegion] = .ok q ∧
    BootSafe smallImage (twoRegions 0xA0000#64) [lowRegion 0xA0000#64, highRegion] q := by
  have hok : (bootBlocks smallImage (twoRegions 0xA0000#64) (fun _ => 0#32)
    [lowRegion 0xA0000#64, highRegion]).toBool = true := by decide +kernel
  obtain ⟨q, hq⟩ := exists_ok hok
  refine ⟨q, hq, ?_⟩
  apply (boot_blocks_safe_iff _ _ _ _ _ _ (twoRegions_walk _) hq).2
  refine ⟨fun e he _ c hc => Or.inl fun a ha ha' => ?_, fun r hr _ _ => Or.inr ?_, fun s hs => ?_⟩
  · change e ∈ [lowRegion 0xA0000#64, highRegion] at he
    simp only [List.mem_cons, List.not_mem_nil, or_false] at he
    rcases he with rfl | rfl
    · refine ⟨lowRegion 0xA0000#64, by simp, rfl, ?_⟩
      simp only [lowRegion, BitVec.toNat_ofNat] at hc ⊢
      omega
    · refine ⟨highRegion, by simp, rfl, ?_⟩
      simp only [highRegion, BitVec.toNat_ofNat] at hc ⊢
      omega
  · revert r
    decide +kernel
  · cases hs

/-- The usual map, whose low region ends at 639 KiB: the block that it holds three quarters of is free. -/
theorem boot_blocks_part_free : ∃ q, bootBlocks smallImage (twoRegions 0x9FC00#64) (fun _ => 0#32)
      [lowRegion 0x9FC00#64, highRegion] = .ok q ∧ q.used 0x9F = false ∧
    ¬ BootSafe smallImage (twoRegions 0x9FC00#64) [lowRegion 0x9FC00#64, highRegion] q := by
  have hok : (bootBlocks smallImage (twoRegions 0x9FC00#64) (fun _ => 0#32)
    [lowRegion 0x9FC00#64, highRegion]).toBool = true := by decide +kernel
  obtain ⟨q, hq⟩ := exists_ok hok
  obtain ⟨-, hlt, hfree, -⟩ := bootBlocks_ok hq
  have hfreed : Freed [lowRegion 0x9FC00#64, highRegion] 0x9F := by decide +kernel
  have hmarked : ¬ Marked smallImage (twoRegions 0x9FC00#64) [lowRegion 0x9FC00#64, highRegion] 0x9F := by
    unfold Marked
    decide +kernel
  have hused : q.used 0x9F = false := (hfree 0x9F (hlt _ hfreed)).2 ⟨hfreed, hmarked⟩
  refine ⟨q, hq, hused, fun hsafe => ?_⟩
  -- the byte behind the region
  obtain ⟨e, he, -, h1, h2⟩ := (hsafe 0x9F (hlt _ hfreed) hused).1 0x9FC00 (by omega) (by omega)
  simp only [List.mem_cons, List.not_mem_nil, or_false] at he
  rcases he with rfl | rfl
  · simp only [lowRegion, BitVec.toNat_ofNat] at h2
    omega
  · simp only [highRegion, BitVec.toNat_ofNat] at h1
    omega

end Myunix.Boot
