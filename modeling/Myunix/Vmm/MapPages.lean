import Myunix.Vmm.VspaceRuns

/-!
# Identity mappings of the kernel (`map_pages` in `vmm.c`)

At boot `map_pages` maps the kernel's sections, the block map and the framebuffer at their own addresses. It rounds
both ends of its range with a mask for 1 KiB, but moves by 4 KiB pages.

* `mapPages_eq` says which entries a call stores: `mapped` of them, from the page of `start`.
* `mapped_stop` compares the last of them with the last page of the range. It depends on the KiB of the two ends in
  their pages (`kib`).
* `map_pages_identity` is the exact condition under which the call maps the pages of its range and nothing else.
-/

namespace Myunix.Vmm

open Lib

/-- The loop of `map_pages`: `n` rounds from address `start`. -/
def mapDirect (start n : Nat) (flags : Word) (vm : Vm) : Kernel Vm :=
  forRange (fun k vm =>
    mapPage vm (getTable vm (start + k * 4096) .kernel) (start + k * 4096) (start + k * 4096) flags) 0 n vm

/-- `map_pages`, less what it prints. For ends up to `0xFFFFF000` the address of the loop does not wrap, and the loop
has a round for each 4096 bytes begun. -/
def mapPages (vm : Vm) (start stop : Nat) (flags : Word) : Kernel Vm :=
  let start := if start % 1024 ≠ 0 then start / 1024 * 1024 else start
  let stop := if stop % 1024 ≠ 0 then (stop / 1024 * 1024 + 4096) % 0x100000000 else stop
  mapDirect start ((stop - start + 4095) / 4096) flags vm

/-! ## What a call stores -/

/-- The KiB of its page in which an address lies. -/
def kib (x : Nat) : Nat := x % 4096 / 1024

/-- How many pages a call for `[start, stop)` stores. -/
def mapped (start stop : Nat) : Nat :=
  ((if stop % 1024 ≠ 0 then stop / 1024 * 1024 + 4096 else stop) - start / 1024 * 1024 + 4095) / 4096

/-- The first page after the range. -/
def pageAfter (stop : Nat) : Nat := (stop + 4095) / 4096

section Stores

variable {vm : Vm} {start stop a r n : Nat} (flags : Word)

/-- The rounds of the loop store the entries of their pages. -/
theorem mapDirect_ok (hk : KernelTables vm) (hr : r % 1024 = 0) (hr' : r < 4096) (hn : a + n ≤ 0x100000) :
    ∃ u, mapDirect (a * 4096 + r) n flags vm = .ok u ∧ ∀ m, u.entry .kernel m =
      if a ≤ m ∧ m < a + n then BitVec.ofNat 32 (m * 4096 + r) ||| flags else vm.entry .kernel m := by
  suffices hloop : ∃ u, mapDirect (a * 4096 + r) n flags vm = .ok u ∧ KernelTables u ∧ ∀ m, u.entry .kernel m =
      if a ≤ m ∧ m < a + n then BitVec.ofNat 32 (m * 4096 + r) ||| flags else vm.entry .kernel m by
    obtain ⟨u, hu, -, hent⟩ := hloop
    exact ⟨u, hu, hent⟩
  refine forRange_zero_ok (P := fun k u => KernelTables u ∧ ∀ m, u.entry .kernel m =
    if a ≤ m ∧ m < a + k then BitVec.ofNat 32 (m * 4096 + r) ||| flags else vm.entry .kernel m) ?_ ?_
  · rintro k u hkn ⟨hku, hent⟩
    have hpage : (a * 4096 + r + k * 4096) / 4096 = a + k := by omega
    obtain ⟨htab, hvirt⟩ := hku ((a * 4096 + r + k * 4096) / 0x400000) (by omega)
    refine ⟨_, mapPage_eq (by omega) htab hvirt, hku.setEntry, fun m => ?_⟩
    rw [hpage, entry_setEntry (by rw [← hpage, table_of_page]; exact htab), hent]
    by_cases hm : m = a + k
    · rw [if_pos ⟨rfl, hm⟩, if_pos (by omega), hm, show a * 4096 + r + k * 4096 = (a + k) * 4096 + r by omega]
    · rw [if_neg (fun h => hm h.2)]
      by_cases hin : a ≤ m ∧ m < a + k
      · rw [if_pos hin, if_pos (by omega)]
      · rw [if_neg hin, if_neg (by omega)]
  · exact ⟨hk, fun m => (if_neg (by omega)).symm⟩

/-- **The entries a call stores**, with the bits of `start` below its page in each of them. -/
theorem mapPages_eq (hk : KernelTables vm) (h : start < stop) (hs : stop ≤ 0xFFFFE000) :
    ∃ u, mapPages vm start stop flags = .ok u ∧ ∀ m, u.entry .kernel m =
      if start / 4096 ≤ m ∧ m < start / 4096 + mapped start stop then
        BitVec.ofNat 32 (m * 4096 + kib start * 1024) ||| flags
      else vm.entry .kernel m := by
  have hstart : (if start % 1024 ≠ 0 then start / 1024 * 1024 else start) = start / 4096 * 4096 + kib start * 1024 := by
    unfold kib
    split <;> omega
  have hstop : ((if stop % 1024 ≠ 0 then (stop / 1024 * 1024 + 4096) % 0x100000000 else stop) -
      (start / 4096 * 4096 + kib start * 1024) + 4095) / 4096 = mapped start stop := by
    unfold mapped kib
    split <;> omega
  have hfit : start / 4096 + mapped start stop ≤ 0x100000 := by
    unfold mapped
    split <;> omega
  obtain ⟨u, hu, hent⟩ := mapDirect_ok flags hk (r := kib start * 1024) (by omega) (by unfold kib; omega) hfit
  refine ⟨u, ?_, hent⟩
  simp only [mapPages]
  rw [hstart, hstop]
  exact hu

/-- Where the stores end, next to where the range ends. -/
theorem mapped_stop (h : start < stop) : start / 4096 + mapped start stop =
    if stop % 1024 ≠ 0 then (if kib start < kib stop then pageAfter stop + 1 else pageAfter stop)
    else if kib stop = 0 ∨ kib start < kib stop then pageAfter stop else pageAfter stop - 1 := by
  unfold mapped pageAfter kib
  split
  · split <;> omega
  · split <;> omega

end Stores

/-! ## Identity mappings -/

/-- A page entry whose frame bits are the page's own address and whose remaining bits are `flags`. -/
def IdentityEntry (n : Nat) (flags e : Word) : Prop := e.toNat / 4096 = n ∧ e.toNat % 4096 = flags.toNat

/-- Page `n` overlaps the addresses from `start` to `stop`. -/
def Overlaps (start stop n : Nat) : Prop := n * 4096 < stop ∧ start < (n + 1) * 4096

/-- Every page that overlaps the range is mapped at its own address with `flags`, and no other entry has changed. -/
structure IdentityMapped (vm : Vm) (start stop : Nat) (flags : Word) (vm' : Vm) : Prop where
  mapped : ∀ n, Overlaps start stop n → IdentityEntry n flags (vm'.entry .kernel n)
  others : ∀ n, ¬ Overlaps start stop n → vm'.entry .kernel n = vm.entry .kernel n

/-- The flags fit below the frame bits and have the bits of `start` below its page. A `stop` off the KiB is not in a
later KiB of its page than `start`, or the page after the range has the entry that the call stores there. A `stop` on
the KiB but inside a page is in a later KiB than `start`, or the last page of the range is mapped already. -/
structure FitsPages (vm : Vm) (start stop : Nat) (flags : Word) : Prop where
  flags_lt : flags.toNat < 4096
  flags_start : kib start * 1024 ||| flags.toNat = flags.toNat
  stop_off : stop % 1024 ≠ 0 → kib stop ≤ kib start ∨
    vm.entry .kernel (pageAfter stop) = BitVec.ofNat 32 (pageAfter stop * 4096 + kib start * 1024) ||| flags
  stop_on : stop % 1024 = 0 → kib stop = 0 ∨ kib start < kib stop ∨
    IdentityEntry (pageAfter stop - 1) flags (vm.entry .kernel (pageAfter stop - 1))

section Identity

variable {vm : Vm} {start stop m r : Nat} {flags : Word}

theorem overlaps_iff : Overlaps start stop m ↔ start / 4096 ≤ m ∧ m < pageAfter stop := by
  unfold Overlaps pageAfter
  omega

/-- The entry that the loop stores is an identity mapping when the low bits of its address are among the flags. -/
theorem identityEntry_stored (hm : m < 0x100000) (hr : r < 4096) :
    IdentityEntry m flags (BitVec.ofNat 32 (m * 4096 + r) ||| flags) ↔
      flags.toNat < 4096 ∧ r ||| flags.toNat = flags.toNat := by
  have hnat : (BitVec.ofNat 32 (m * 4096 + r) ||| flags).toNat = (m * 4096 + r) ||| flags.toNat := by
    rw [BitVec.toNat_or, BitVec.toNat_ofNat, Nat.mod_eq_of_lt (by omega)]
  have hhigh : ((m * 4096 + r) ||| flags.toNat) / 4096 = m ||| flags.toNat / 4096 := by
    have hdiv := Nat.or_div_two_pow (a := m * 4096 + r) (b := flags.toNat) (n := 12)
    rw [show (m * 4096 + r) / 2 ^ 12 = m by omega] at hdiv
    exact hdiv
  have hlow : ((m * 4096 + r) ||| flags.toNat) % 4096 = r ||| flags.toNat % 4096 := by
    have hmod := Nat.or_mod_two_pow (a := m * 4096 + r) (b := flags.toNat) (n := 12)
    rw [show (m * 4096 + r) % 2 ^ 12 = r by omega] at hmod
    exact hmod
  unfold IdentityEntry
  rw [hnat, hhigh, hlow]
  constructor
  · rintro ⟨-, hflags⟩
    have hlt : r ||| flags.toNat % 4096 < 4096 := Nat.or_lt_two_pow (n := 12) hr (Nat.mod_lt _ (by omega))
    have hflags' : flags.toNat < 4096 := hflags ▸ hlt
    rw [Nat.mod_eq_of_lt hflags'] at hflags
    exact ⟨hflags', hflags⟩
  · rintro ⟨hlt, hflags⟩
    rw [Nat.mod_eq_of_lt hlt, Nat.div_eq_of_lt hlt]
    exact ⟨Nat.or_zero m, hflags⟩

/-- A call that maps its range exactly. -/
theorem identityMapped_of_fits (hk : KernelTables vm) (h : start < stop) (hs : stop ≤ 0xFFFFE000)
    (hf : FitsPages vm start stop flags) :
    ∃ vm', mapPages vm start stop flags = .ok vm' ∧ IdentityMapped vm start stop flags vm' := by
  obtain ⟨u, hu, hent⟩ := mapPages_eq flags hk h hs
  have hend := mapped_stop h
  have hkib : kib start * 1024 < 4096 := by unfold kib; omega
  have hafter : pageAfter stop < 0x100000 := by unfold pageAfter; omega
  refine ⟨u, hu, fun n hn => ?_, fun n hn => ?_⟩
  · obtain ⟨hlow, hhigh⟩ := overlaps_iff.1 hn
    rw [hent]
    split
    · exact (identityEntry_stored (by omega) hkib).2 ⟨hf.flags_lt, hf.flags_start⟩
    · next hout =>
      -- only the last page can be missed
      split at hend
      · split at hend <;> omega
      · next hoff =>
        split at hend
        · omega
        · next hno =>
          rcases hf.stop_on (not_not.1 hoff) with h0 | hlt | hid
          · exact absurd (Or.inl h0) hno
          · exact absurd (Or.inr hlt) hno
          · rwa [show n = pageAfter stop - 1 by omega]
  · rw [hent]
    split
    · next hin =>
      -- only the page after the range can be stored too
      have hn' : ¬ n < pageAfter stop := fun hlt => hn (overlaps_iff.2 ⟨hin.1, hlt⟩)
      split at hend
      · next hoff =>
        split at hend
        · next hlt =>
          rcases hf.stop_off hoff with hle | hstored
          · omega
          · rw [show n = pageAfter stop by omega]
            exact hstored.symm
        · omega
      · split at hend <;> omega
    · rfl

/-- What a call that maps its range exactly needs. -/
theorem fits_of_identityMapped (hk : KernelTables vm) (h : start < stop) (hs : stop ≤ 0xFFFFE000) {vm' : Vm}
    (hu : mapPages vm start stop flags = .ok vm') (hi : IdentityMapped vm start stop flags vm') :
    FitsPages vm start stop flags := by
  obtain ⟨u, hu', hent⟩ := mapPages_eq flags hk h hs
  rw [hu, Except.ok.injEq] at hu'
  subst hu'
  have hend := mapped_stop h
  have hkib : kib start * 1024 < 4096 := by unfold kib; omega
  have hafter : start / 4096 < pageAfter stop ∧ pageAfter stop < 0x100000 := by unfold pageAfter; omega
  have hsame : start / 4096 + 1 = pageAfter stop → stop % 1024 = 0 → kib stop = 0 ∨ kib start < kib stop := by
    unfold pageAfter kib
    omega
  have hpos : 0 < mapped start stop := by
    split at hend
    · split at hend <;> omega
    · next hoff =>
      split at hend
      · omega
      · next hno =>
        have := fun he => hno (hsame he (not_not.1 hoff))
        omega
  -- the page of `start` is stored in any case
  have hfirst := hi.mapped (start / 4096) (overlaps_iff.2 ⟨Nat.le_refl _, hafter.1⟩)
  rw [hent, if_pos (by omega)] at hfirst
  obtain ⟨hlt, hstart⟩ := (identityEntry_stored (by omega) hkib).1 hfirst
  refine ⟨hlt, hstart, fun hoff => ?_, fun hon => ?_⟩
  · rw [if_pos hoff] at hend
    by_cases hle : kib stop ≤ kib start
    · exact Or.inl hle
    · rw [if_pos (by omega)] at hend
      have hnext := hi.others (pageAfter stop) (fun ho => by have := (overlaps_iff.1 ho).2; omega)
      rw [hent, if_pos (by omega)] at hnext
      exact Or.inr hnext.symm
  · rw [if_neg (not_not.2 hon)] at hend
    by_cases hcov : kib stop = 0 ∨ kib start < kib stop
    · exact hcov.imp_right Or.inl
    · rw [if_neg hcov] at hend
      have hlast := hi.mapped (pageAfter stop - 1) (overlaps_iff.2 (by omega))
      rw [hent, if_neg (by omega)] at hlast
      exact Or.inr (Or.inr hlast)

end Identity

/-- **Identity mappings.** With the kernel's tables in place, a call for a range that is not empty maps exactly the pages
that overlap it, at their own addresses and with the flags it is given, if and only if the range fits the pages. -/
theorem map_pages_identity (vm : Vm) (start stop : Nat) (flags : Word) (hk : KernelTables vm) (h : start < stop)
    (hs : stop ≤ 0xFFFFE000) :
    (∃ vm', mapPages vm start stop flags = .ok vm' ∧ IdentityMapped vm start stop flags vm') ↔
      FitsPages vm start stop flags := by
  constructor
  · rintro ⟨vm', hu, hi⟩
    exact fits_of_identityMapped hk h hs hu hi
  · exact identityMapped_of_fits hk h hs

/-- Two whole pages. -/
theorem map_pages_two_pages : ∃ vm', mapPages (kernelVm fun _ => 0#32) 0x100000 0x102000 pagePresent = .ok vm' ∧
    IdentityMapped (kernelVm fun _ => 0#32) 0x100000 0x102000 pagePresent vm' := by
  have hfits : FitsPages (kernelVm fun _ => 0#32) 0x100000 0x102000 pagePresent :=
    ⟨by decide, by decide, fun h => absurd h (by decide), fun _ => Or.inl (by decide)⟩
  exact (map_pages_identity _ 0x100000 0x102000 pagePresent kernelVm_tables (by omega) (by omega)).2 hfits

/-- A range that ends one byte into the second KiB of its only page: the page after it is mapped as well. -/
theorem map_pages_page_more : ¬ ∃ vm', mapPages (kernelVm fun _ => 0#32) 0x100000 0x100401 pagePresent = .ok vm' ∧
    IdentityMapped (kernelVm fun _ => 0#32) 0x100000 0x100401 pagePresent vm' := by
  rintro ⟨vm', hu, hi⟩
  have hfits := fits_of_identityMapped kernelVm_tables (by omega) (by omega) hu hi
  rcases hfits.stop_off (by decide) with h | h
  · exact absurd h (by decide)
  · rw [kernelVm_entry] at h
    exact absurd h (by decide)

end Myunix.Vmm
