import Myunix.Syscall.Copy

/-!
# A copy to user memory that has returned (`syscall.c`)

`userspace_copies` says when `copy_to_userspace` returns. Here nothing is known of the kernel directory: the free pages
may be used up, and the run of scratch pages may reach over the end of the address space to its start. If the function
returns another value than -1, it has stored the buffer all the same (`copyToUserspace_stored`).
-/

namespace Myunix.Syscall

open Lib Vmm Process

/-- The user directories, the block map and physical memory are as they were. -/
structure UserSame (vm vm' : Vm) : Prop where
  users : ∀ a, vm'.dirs (.user a) = vm.dirs (.user a)
  pmm : vm'.pmm = vm.pmm
  frames : vm'.frames = vm.frames

section Kernel

variable {vm u vm' : Vm} {a n v p : Nat} {f : Word}

theorem UserSame.refl (vm : Vm) : UserSame vm vm := ⟨fun _ => rfl, rfl, rfl⟩

theorem UserSame.trans (h : UserSame vm u) (h' : UserSame u vm') : UserSame vm vm' :=
  ⟨fun a => (h'.users a).trans (h.users a), h'.pmm.trans h.pmm, h'.frames.trans h.frames⟩

theorem UserSame.entry (h : UserSame vm u) (m : Nat) : u.entry (.user a) m = vm.entry (.user a) m := by
  unfold Vm.entry Vm.pageAt
  rw [h.users]

theorem userSame_mapPage (h : mapPage vm (getTable vm v .kernel) v p f = .ok u) : UserSame vm u := by
  obtain ⟨-, -, rfl⟩ := mapPage_ok h
  exact ⟨fun _ => dirs_setEntry_kernel, rfl, rfl⟩

theorem userSame_findVspace (h : findVspace .kernel n vm = .ok (v, u)) : UserSame vm u := by
  rw [findVspace_kernel] at h
  simp only [findVspaceKernel, findVspaceWith, bind_eq_ok, assert_eq_ok] at h
  obtain ⟨-, hn, h⟩ := h
  rcases vspaceFrom_spec (quiet_eq .kernel) kernelTable_spec hn (by omega) h with
    ⟨-, rfl, -⟩ | ⟨j, s, -, -, -, -, -, rfl, hres⟩
  · exact UserSame.refl vm
  · refine forRange_keeps (I := UserSame vm) ?_ hres (UserSame.refl vm)
    intro k w w' _ _ hw hmap
    exact hw.trans (userSame_mapPage hmap)

theorem userSame_unmapFromKernel (h : unmapFromKernel v n vm = .ok u) : UserSame vm u := by
  simp only [unmapFromKernel, bind_eq_ok, assert_eq_ok] at h
  obtain ⟨-, -, h⟩ := h
  refine forRange_keeps (I := UserSame vm) ?_ h (UserSame.refl vm)
  intro k w w' _ _ hw hmap
  exact hw.trans (userSame_mapPage hmap)

end Kernel

section Map

variable {vm u u' : Vm} {a n : Nat}

/-- The page of round `k` of a loop that starts at `ptr`. -/
def roundPage (ptr k : Nat) : Nat := (ptr + k * 4096) % 0x100000000 / 4096

theorem roundPage_inj {ptr i k : Nat} (hal : ptr % 4096 = 0) (hi : i < 0x100000) (hk : k < 0x100000)
    (h : roundPage ptr i = roundPage ptr k) : i = k := by
  unfold roundPage at h
  omega

/-- The pages of the first `n` rounds are the user's, and mapped at the scratch pages. -/
def MappedRounds (vm u : Vm) (a ptr kptr n : Nat) : Prop :=
  ∀ k < n, UserEntry (vm.entry (.user a) (roundPage ptr k)) ∧
    u.entry .kernel (roundPage kptr k) = vm.entry (.user a) (roundPage ptr k) ||| (pagePresent ||| pageReadwrite)

/-- **Inversion** for a mapper that has not stopped. -/
theorem mapUserPages_rounds {ptr kptr rest i : Nat} (hal : kptr % 4096 = 0) (hn : i + rest ≤ 0x100000)
    (hu : UserSame vm u) (hm : MappedRounds vm u a ptr kptr i)
    (h : mapUserPages (.user a) ptr kptr rest i u = .ok (true, u')) :
    UserSame vm u' ∧ MappedRounds vm u' a ptr kptr (i + rest) := by
  induction rest generalizing i u with
  | zero =>
    rw [mapUserPages, Except.ok.injEq, Prod.mk.injEq] at h
    obtain ⟨-, rfl⟩ := h
    exact ⟨hu, hm⟩
  | succ rest ih =>
    simp only [mapUserPages, bind_eq_ok] at h
    obtain ⟨u₁, hclear, -, -, h⟩ := h
    have hu₁ := hu.trans (userSame_mapPage hclear)
    obtain ⟨-, ht, rfl⟩ := mapPage_ok hclear
    cases htab : getTable (u.setEntry .kernel ((kptr + i * 4096) % 0x100000000 / 4096)
        (BitVec.ofNat 32 0 ||| 0#32)) ((ptr + i * 4096) % 0x100000000) (.user a) with
    | none =>
      rw [htab] at h
      simp only [pure_eq_ok, Prod.mk.injEq] at h
      exact absurd h.1 (by decide)
    | some table =>
      rw [htab] at h
      obtain ⟨-, rfl⟩ := getTable_eq_some.1 htab
      simp only [getPage_table, ok_bind, hu₁.entry] at h
      split at h
      · simp only [pure_eq_ok, Prod.mk.injEq] at h
        exact absurd h.1 (by decide)
      · rename_i hgood
        rw [not_or, not_or] at hgood
        simp only [bind_eq_ok] at h
        obtain ⟨u₂, hmap, -, -, h⟩ := h
        have hu₂ := hu₁.trans (userSame_mapPage hmap)
        obtain ⟨-, ht', rfl⟩ := mapPage_ok hmap
        rw [show i + (rest + 1) = i + 1 + rest by omega]
        refine ih (by omega) hu₂ (fun k hk => ?_) h
        by_cases hki : k = i
        · subst hki
          refine ⟨hgood, ?_⟩
          rw [roundPage, entry_setEntry ht', if_pos ⟨rfl, rfl⟩, BitVec.ofNat_toNat, BitVec.setWidth_eq]
          rfl
        · -- the scratch pages of the rounds differ
          have hne : roundPage kptr k ≠ roundPage kptr i := fun heq =>
            hki (roundPage_inj hal (by omega) (by omega) heq)
          obtain ⟨hue, hent⟩ := hm k (by omega)
          refine ⟨hue, ?_⟩
          rw [entry_setEntry ht', if_neg fun hc => hne hc.2, entry_setEntry ht, if_neg fun hc => hne hc.2]
          exact hent

theorem mapUserspaceToKernel_rounds {ptr kptr : Nat} (hn : n ≤ 0x100000)
    (h : mapUserspaceToKernel vm (.user a) ptr kptr n = .ok (true, u)) :
    kptr % 4096 = 0 ∧ UserSame vm u ∧ MappedRounds vm u a ptr kptr n := by
  simp only [mapUserspaceToKernel, bind_eq_ok, assert_eq_ok] at h
  obtain ⟨-, ⟨-, hal, -⟩, ⟨done, u₁⟩, hloop, h⟩ := h
  cases done with
  | false =>
    simp only [Bool.false_eq_true, if_false, bind_eq_ok, pure_eq_ok, Prod.mk.injEq] at h
    obtain ⟨-, -, -, -, hfalse, -⟩ := h
    cases hfalse
  | true =>
    simp only [if_true, pure_eq_ok, Prod.mk.injEq, true_and] at h
    subst h
    have hrounds := mapUserPages_rounds hal (by omega) (UserSame.refl vm)
      (fun k hk => absurd hk (Nat.not_lt_zero k)) hloop
    rw [Nat.zero_add] at hrounds
    exact ⟨hal, hrounds⟩

/-- The mapping of a range that does not fail. -/
theorem mapCopy_rounds {ptr n : Word} {kptr : Nat} (h : mapCopy vm (.user a) ptr n = .ok (some kptr, u)) :
    kptr % 4096 = 0 ∧ UserSame vm u ∧ MappedRounds vm u a (ptr.toNat / 4096 * 4096) kptr (nBlocks ptr n) := by
  have hblocks : nBlocks ptr n ≤ 0x100000 := by
    rw [nBlocks_eq]
    omega
  simp only [mapCopy, bind_eq_ok, page_toNat] at h
  obtain ⟨-, -, ⟨kptr', u₁⟩, hfind, h⟩ := h
  have hu₁ := userSame_findVspace hfind
  split at h
  · simp only [pure_eq_ok, Prod.mk.injEq] at h
    cases h.1
  · simp only [bind_eq_ok] at h
    obtain ⟨⟨done, u₂⟩, hmap, h⟩ := h
    cases done with
    | false =>
      simp only [Bool.false_eq_true, if_false, bind_eq_ok, pure_eq_ok, Prod.mk.injEq] at h
      obtain ⟨-, -, hnone, -⟩ := h
      cases hnone
    | true =>
      simp only [if_true, pure_eq_ok, Prod.mk.injEq, Option.some.injEq] at h
      obtain ⟨rfl, rfl⟩ := h
      obtain ⟨hal, hu₂, hm⟩ := mapUserspaceToKernel_rounds hblocks hmap
      refine ⟨hal, hu₁.trans hu₂, fun k hk => ?_⟩
      rw [← hu₁.entry]
      exact hm k hk

/-- Through the scratch pages the kernel reaches the frames of the user's pages. -/
theorem MappedRounds.kernelFrame {ptr N kptr i : Nat} (hm : MappedRounds vm u a (ptr / 4096 * 4096) kptr N)
    (hal : kptr % 4096 = 0) (hfits : ptr + i < 0x100000000) (hi : (ptr % 4096 + i) / 4096 < N) :
    Vmm.kernelFrame u (((kptr + ptr % 4096) % 0x100000000 + i) % 0x100000000) =
        .ok (userPlace vm (.user a) (ptr + i)).1 ∧
      ((kptr + ptr % 4096) % 0x100000000 + i) % 0x100000000 % 4096 = (userPlace vm (.user a) (ptr + i)).2 := by
  obtain ⟨hue, hent⟩ := hm _ hi
  have hpage : ((kptr + ptr % 4096) % 0x100000000 + i) % 0x100000000 / 4096 =
      roundPage kptr ((ptr % 4096 + i) / 4096) := by
    unfold roundPage
    omega
  have huser : roundPage (ptr / 4096 * 4096) ((ptr % 4096 + i) / 4096) = (ptr + i) / 4096 := by
    unfold roundPage
    omega
  rw [huser] at hue hent
  have hpres : (vm.entry (.user a) ((ptr + i) / 4096) ||| (pagePresent ||| pageReadwrite)) &&& pagePresent ≠ 0#32 := by
    intro hz
    rw [BitVec.and_or_distrib_right, BitVec.or_eq_zero_iff] at hz
    exact hue.1 hz.1
  refine ⟨?_, ?_⟩
  · unfold Vmm.kernelFrame
    simp only [hpage, hent, if_neg hpres]
    exact congrArg Except.ok (frameOf_or (by decide))
  · show _ = (ptr + i) % 4096
    omega

/-- **A copy that has not failed**: the range is the user's, the buffer is stored there and nothing else is, and the user
directories and the block map are as they were. -/
theorem copyToUserspace_stored {ptr n r : Word} {buffer : Nat → Byte} (hfits : ptr.toNat + n.toNat ≤ 0x100000000)
    (hsum : 4095 + n.toNat + (ptr &&& 0xFFF#32).toNat < 0x100000000)
    (h : copyToUserspace vm (.user a) ptr n buffer = .ok (r, u)) (hr : r ≠ 0xFFFFFFFF#32) :
    (∀ b, u.dirs (.user b) = vm.dirs (.user b)) ∧ u.pmm = vm.pmm ∧ UserRange vm (.user a) ptr.toNat n.toNat ∧
      Stored (fun i => userPlace vm (.user a) (ptr.toNat + i)) buffer n.toNat vm.frames u.frames := by
  simp only [copyToUserspace, bind_eq_ok] at h
  obtain ⟨⟨kptr, u₁⟩, hmap, h⟩ := h
  cases kptr with
  | none =>
    simp only [pure_eq_ok, Prod.mk.injEq] at h
    exact absurd h.1.symm hr
  | some kptr =>
    simp only [bind_eq_ok, pure_eq_ok, Prod.mk.injEq] at h
    obtain ⟨u₂, hcpy, u₃, hun, -, rfl⟩ := h
    obtain ⟨hal, hu₁, hm⟩ := mapCopy_rounds hmap
    have hoff := offset_toNat ptr
    have hargs : kptr2 kptr ptr ≠ 0 ∧ n.toNat ≠ 0 := by
      simp only [memcpyTo, bind_eq_ok, assert_eq_ok] at hcpy
      obtain ⟨-, hargs, -⟩ := hcpy
      exact hargs
    have hn : n ≠ 0#32 := fun hn => hargs.2 (by rw [hn]; rfl)
    have hblocks : nBlocks ptr n = (4095 + n.toNat + ptr.toNat % 4096) / 4096 := by
      rw [hoff] at hsum
      rw [nBlocks_eq, hoff, Nat.mod_eq_of_lt hsum]
    have hplaces : ∀ i < n.toNat,
        Vmm.kernelFrame u₁ ((kptr2 kptr ptr + i) % 0x100000000) = .ok (userPlace vm (.user a) (ptr.toNat + i)).1 ∧
          (kptr2 kptr ptr + i) % 0x100000000 % 4096 = (userPlace vm (.user a) (ptr.toNat + i)).2 := by
      intro i hi
      unfold kptr2
      rw [hoff]
      apply hm.kernelFrame hal (by omega)
      rw [hblocks]
      omega
    obtain ⟨frames, hcpy', hst⟩ := memcpyTo_ok (b := buffer) hargs.1 hargs.2 hplaces
    obtain rfl : { u₁ with frames := frames } = u₂ := Except.ok.inj (hcpy'.symm.trans hcpy)
    have hu₃ := userSame_unmapFromKernel hun
    refine ⟨fun b => (hu₃.users b).trans (hu₁.users b), hu₃.pmm.trans hu₁.pmm, (userRange_iff hn hsum).2 fun k hk => ?_, ?_⟩
    · have hpage : roundPage (ptr.toNat / 4096 * 4096) k = ptr.toNat / 4096 + k := by
        rw [hblocks] at hk
        unfold roundPage
        omega
      rw [← hpage]
      exact (hm k hk).1
    · rw [hu₃.frames, ← hu₁.frames]
      exact hst

end Map

end Myunix.Syscall
