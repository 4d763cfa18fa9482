import Myunix.Process.Teardown
import Myunix.Syscall.CopyStored

/-!
# The pages that `process_execve` maps (`process.c`)

Every page of the heap, of the program, of the stack and of the misc region is mapped in a block that was free when it
was taken, and none of these blocks is given back. So two of the pages never lie in the same block
(`processExecvePages_own`). Nothing else has to be known of the state in which `process_execve` is called.
-/

namespace Myunix.Process

open Lib Pmm Vmm Syscall

/-- The pages `P` of directory `a` are the user's, and each lies in a block of its own, which is in use. -/
structure OwnPages (a : Nat) (P : Nat → Prop) (s : Vm) : Prop where
  user : ∀ m, P m → UserEntry (s.entry (.user a) m)
  used : ∀ m, P m → s.pmm.used (frameOf (s.entry (.user a) m)) = true
  own : ∀ m m', P m → P m' → frameOf (s.entry (.user a) m) = frameOf (s.entry (.user a) m') → m = m'

/-- The pages of the heap and of the misc region. -/
def ImagePage (m : Nat) : Prop := 0x2000 ≤ m ∧ m < 0x2100 ∨ m = 0x10000

section Pages

variable {a kTmp v n start : Nat} {P Q : Nat → Prop} {s s' : Vm}

theorem userEntry_or (x : Word) : UserEntry (x ||| (pagePresent ||| pageReadwrite ||| pageUser)) := by
  refine ⟨?_, ?_, ?_⟩
  · exact present_of_or x (by decide)
  · intro h
    have hbit := congrArg (fun w => w.getLsbD 1) h
    simp [pagePresent, pageReadwrite, pageUser] at hbit
  · intro h
    have hbit := congrArg (fun w => w.getLsbD 2) h
    simp [pagePresent, pageReadwrite, pageUser] at hbit

theorem ownPages_none (a : Nat) (s : Vm) : OwnPages a (fun _ => False) s :=
  ⟨fun _ h => h.elim, fun _ h => h.elim, fun _ _ h => h.elim⟩

theorem OwnPages.imp (h : OwnPages a P s) (hQ : ∀ m, Q m → P m) : OwnPages a Q s :=
  ⟨fun m hm => h.user m (hQ m hm), fun m hm => h.used m (hQ m hm), fun m m' hm hm' => h.own m m' (hQ m hm) (hQ m' hm')⟩

/-- Nothing happens to the entries, and no block is given back. -/
theorem OwnPages.same (h : OwnPages a P s) (hent : ∀ m, s'.entry (.user a) m = s.entry (.user a) m)
    (hused : ∀ c, s.pmm.used c = true → s'.pmm.used c = true) : OwnPages a P s' := by
  refine ⟨fun m hm => ?_, fun m hm => ?_, fun m m' hm hm' heq => ?_⟩
  · rw [hent]
    exact h.user m hm
  · rw [hent]
    exact hused _ (h.used m hm)
  · rw [hent, hent] at heq
    exact h.own m m' hm hm' heq

/-- A page more, in a block that no other page has. -/
theorem OwnPages.setEntry {b p : Nat} (h : OwnPages a P s) (ht : s.HasTable (.user a) (p / 1024)) (hb : b < 0x100000)
    (hused : s.pmm.used b = true) (hother : ∀ m, P m → frameOf (s.entry (.user a) m) ≠ b) :
    OwnPages a (fun m => P m ∨ m = p) (s.setEntry (.user a) p
      (BitVec.ofNat 32 (b * 4096) ||| (pagePresent ||| pageReadwrite ||| pageUser))) := by
  have hnew : (s.setEntry (.user a) p (BitVec.ofNat 32 (b * 4096) ||| (pagePresent ||| pageReadwrite ||| pageUser))).entry
      (.user a) p = BitVec.ofNat 32 (b * 4096) ||| (pagePresent ||| pageReadwrite ||| pageUser) := by
    rw [entry_setEntry ht, if_pos ⟨rfl, rfl⟩]
  have hold : ∀ m, m ≠ p → (s.setEntry (.user a) p
      (BitVec.ofNat 32 (b * 4096) ||| (pagePresent ||| pageReadwrite ||| pageUser))).entry (.user a) m =
        s.entry (.user a) m := by
    intro m hm
    rw [entry_setEntry ht, if_neg fun hc => hm hc.2]
  have hframe : frameOf (BitVec.ofNat 32 (b * 4096) ||| (pagePresent ||| pageReadwrite ||| pageUser)) = b := by
    rw [frameOf_or (by decide), frameOf_ofNat hb]
  refine ⟨fun m hm => ?_, fun m hm => ?_, fun m m' hm hm' heq => ?_⟩
  · by_cases hmp : m = p
    · rw [hmp, hnew]
      exact userEntry_or _
    · rw [hold m hmp]
      exact h.user m (hm.resolve_right hmp)
  · by_cases hmp : m = p
    · rw [hmp, hnew, hframe]
      exact hused
    · rw [hold m hmp]
      exact h.used m (hm.resolve_right hmp)
  · by_cases hmp : m = p
    · by_cases hmp' : m' = p
      · rw [hmp, hmp']
      · rw [hmp, hnew, hframe, hold m' hmp'] at heq
        exact absurd heq.symm (hother m' (hm'.resolve_right hmp'))
    · by_cases hmp' : m' = p
      · rw [hmp', hnew, hframe, hold m hmp] at heq
        exact absurd heq (hother m (hm.resolve_right hmp))
      · rw [hold m hmp, hold m' hmp'] at heq
        exact h.own m m' (hm.resolve_right hmp) (hm'.resolve_right hmp') heq

/-- **One page**: its block was free. -/
theorem execPage_own {content : Nat → Byte} (h : OwnPages a P s) (hv : v < 0x100000000)
    (hrun : execPage (.user a) kTmp v content s = .ok s') : OwnPages a (fun m => P m ∨ m = v / 4096) s' := by
  simp only [execPage, bind_eq_ok, Prod.exists] at hrun
  obtain ⟨phys, pmm, halloc, s₁, hmap, -, -, s₂, hfill, t, s₃, htable, hrun⟩ := hrun
  obtain ⟨b, -, rfl, hfree, -, -, hused⟩ := pmmAllocBlocksSafe_ok halloc
  obtain ⟨hlt, hun⟩ := hfree b ⟨Nat.le_refl b, by omega⟩
  have hb : b < 0x100000 := Nat.lt_of_lt_of_le hlt (Nat.le_succ_of_le (BlockMap.size_le _))
  have hgrow : ∀ c, s.pmm.used c = true → pmm.used c = true := by
    intro c hc
    rw [hused, hc, Bool.true_or]
  have htaken : pmm.used b = true := by
    rw [hused, decide_eq_true (by unfold InRange; omega), Bool.or_true]
  have hother : ∀ m, P m → frameOf (s.entry (.user a) m) ≠ b := by
    intro m hm heq
    have hm' := h.used m hm
    rw [heq, hun] at hm'
    cases hm'
  -- the scratch page is mapped and the page filled
  have hscratch : (∀ m, s₂.entry (.user a) m = s.entry (.user a) m) ∧ s₂.pmm = pmm := by
    have hentry := (userSame_mapPage hmap).entry (a := a)
    obtain ⟨-, -, rfl⟩ := mapPage_ok hmap
    simp only [fillPage, bind_eq_ok, pure_eq_ok] at hfill
    obtain ⟨frame, -, rfl⟩ := hfill
    exact ⟨hentry, rfl⟩
  -- a table may be added
  obtain ⟨rfl, htab⟩ := getTableAlloc_ok hv htable
  have hsame : (∀ m, s₃.entry (.user a) m = s.entry (.user a) m) ∧ ∀ c, pmm.used c = true → s₃.pmm.used c = true := by
    rcases htab with ⟨-, rfl⟩ | ⟨hno, phys, j, hadd⟩
    · exact ⟨hscratch.1, fun c hc => hscratch.2 ▸ hc⟩
    · refine ⟨fun m => (hadd.entry_same hno m).trans (hscratch.1 m), fun c hc => ?_⟩
      obtain ⟨b', -, -, -, -, -, hused'⟩ := pmmAllocBlocksSafe_ok hadd.block
      rw [hused', hscratch.2, hc, Bool.true_or]
  have hgot : getTable s₃ v (.user a) = some ⟨.user a, v / 0x400000⟩ := getTableAlloc_getTable hv htable
  rw [← hgot] at hrun
  obtain ⟨-, ht, rfl⟩ := mapPage_ok hrun
  refine (h.same hsame.1 fun c hc => hsame.2 c (hgrow c hc)).setEntry ht hb (hsame.2 b htaken) fun m hm => ?_
  rw [hsame.1]
  exact hother m hm

/-- A region. -/
theorem execPages_own {content : Nat → Nat → Byte} (h : OwnPages a P s)
    (hrun : execPages (.user a) kTmp start n content s = .ok s') :
    OwnPages a (fun m => P m ∨ ∃ k < n, m = roundPage start k) s' := by
  have hinv := forRange_inv (P := fun i u => OwnPages a (fun m => P m ∨ ∃ k < i, m = roundPage start k) u) ?_ hrun
    (h.imp fun m hm => hm.resolve_right fun ⟨k, hk, _⟩ => Nat.not_lt_zero k hk)
  · rwa [Nat.zero_add] at hinv
  · intro i u u' _ _ hu hstep
    apply (execPage_own hu (Nat.mod_lt _ (by omega)) hstep).imp
    intro m hm
    rcases hm with hm | ⟨k, hk, rfl⟩
    · exact Or.inl (Or.inl hm)
    · rcases Nat.lt_succ_iff_lt_or_eq.1 hk with hk | rfl
      · exact Or.inl (Or.inr ⟨k, hk, rfl⟩)
      · exact Or.inr rfl

/-- **The user pages**, whatever the program is. -/
theorem processExecvePages_own {textPages : Nat} {text : Nat → Nat → Byte}
    (hrun : processExecvePages (.user a) textPages text s = .ok s') : OwnPages a ImagePage s' := by
  simp only [processExecvePages, bind_eq_ok, Prod.exists] at hrun
  obtain ⟨kTmp, s₁, -, -, -, s₂, hheap, s₃, htext, s₄, hstack, s₅, hmisc, hrun⟩ := hrun
  have h₂ := execPages_own (ownPages_none a s₁) hheap
  have h₅ := execPages_own (execPages_own (execPages_own h₂ htext) hstack) hmisc
  have hentry := (userSame_mapPage hrun).entry (a := a)
  obtain ⟨-, -, rfl⟩ := mapPage_ok hrun
  refine (h₅.same hentry fun c hc => hc).imp fun m hm => ?_
  rcases hm with ⟨hge, hlt⟩ | rfl
  · refine Or.inl (Or.inl (Or.inl (Or.inr ⟨m - 0x2000, by omega, ?_⟩)))
    unfold roundPage
    omega
  · exact Or.inr ⟨0, by omega, rfl⟩

end Pages

end Myunix.Process
