import Myunix.Lib.HeapLog
import Myunix.Syscall.CopyString

/-!
# Arrays of strings from user memory (`syscall.c`)

`copy_from_userspace_ptr_array` copies words from user memory up to the first 0, or until the buffer is full, and
`copy_from_userspace_array` copies the strings at these addresses into blocks of 256 bytes. Every other word is taken
from the heap: the array that is returned, the array of addresses and the strings.

* `ptrPages_spec` says what the first function reads, wherever it stops.
* `copyFromUserspaceArray_ledger` says which blocks the second one leaves behind besides those that its caller gets.

`kmalloc` and `kcalloc` return a new block, so the branches for `NULL` are left out.
-/

namespace Myunix.Syscall

open Lib Vmm Process

/-! ## The code -/

/-- The word of four bytes. -/
def wordOf (byte : Nat → Byte) : Word := byte 3 ++ byte 2 ++ byte 1 ++ byte 0

/-- `*(uintptr_t *)va` for the kernel. -/
def kernelLoadWord (vm : Vm) (va : Nat) : Kernel Word := do
  let b0 ← kernelLoad vm va
  let b1 ← kernelLoad vm (va + 1)
  let b2 ← kernelLoad vm (va + 2)
  let b3 ← kernelLoad vm (va + 3)
  return b3 ++ b2 ++ b1 ++ b0

/-- What a call of `copy_from_userspace_ptr_array` returns: its result, the buffer and the machine. -/
abbrev PtrRet := Word × (Nat → Word) × Vm

/-- `*buf = w` for word `i` of a buffer of `n` words. -/
def storeWord (n : Nat) (buffer : Nat → Word) (i : Nat) (w : Word) : Kernel (Nat → Word) :=
  if i < n then .ok (Function.update buffer i w) else .error .bounds

/-- The `for` loop over the `rest` last words of the page at `kptr`, with `i` words copied to the buffer at address
`addr`. It returns from the function (`inl`) or ends (`inr`). -/
def ptrWords (vm : Vm) (kptr addr n : Nat) : Nat → Nat → (Nat → Word) → Kernel (PtrRet ⊕ (Nat × (Nat → Word)))
  | 0, i, buffer => .ok (.inr (i, buffer))
  | rest + 1, i, buffer =>
    if (addr + i * 4) % 0x100000000 ≥ (addr + n * 4) % 0x100000000 then do
      let vm ← unmapFromKernel kptr 1 vm
      return .inl (BitVec.ofNat 32 i - 1#32, buffer, vm)
    else do
      let w ← kernelLoadWord vm (kptr + (4096 - (rest + 1) * 4))
      let buffer ← storeWord n buffer i w
      if w = 0#32 then
        let vm ← unmapFromKernel kptr 1 vm
        return .inl (BitVec.ofNat 32 i, buffer, vm)
      else ptrWords vm kptr addr n rest (i + 1) buffer

/-- The `while` loop; `none` when it is not over after that many rounds. -/
def ptrPages (pdir : DirPtr) (kptr addr n : Nat) :
    Nat → Nat → Nat → Nat → (Nat → Word) → Vm → Kernel (Option PtrRet)
  | 0, _, _, _, _, _ => .ok none
  | rounds + 1, p, offset, i, buffer, vm => do
    let (done, vm) ← mapUserspaceToKernel vm pdir p kptr 1
    if done then
      match ← ptrWords vm kptr addr n (((kptr + 4096) % 0x100000000 - (kptr + offset)) / 4) i buffer with
      | .inl r => return some r
      | .inr (i, buffer) => ptrPages pdir kptr addr n rounds ((p + 4096) % 0x100000000) 0 i buffer vm
    else
      let vm ← unmapFromKernel kptr 1 vm
      return some (0xFFFFFFFF#32, buffer, vm)

/-- `copy_from_userspace_ptr_array`; the buffer is an object of `n` words at address `addr`. -/
def copyFromUserspacePtrArray (vm : Vm) (pdir : DirPtr) (ptr : Word) (n addr : Nat) (buffer : Nat → Word)
    (rounds : Nat) : Kernel (Option PtrRet) := do
  kassert (addr ≠ 0)
  if ptr = 0#32 then return some (0#32, buffer, vm)
  else if ptr.toNat % 4 ≠ 0 then return some (0xFFFFFFFF#32, buffer, vm)
  else
    let (kptr, vm) ← findVspace .kernel 1 vm
    if kptr = 0 then return some (0xFFFFFFFF#32, buffer, vm)
    else ptrPages pdir kptr addr n rounds (ptr &&& ~~~ 0xFFF#32).toNat (ptr &&& 0xFFF#32).toNat 0 buffer vm

/-- Why a call has not returned: the kernel stops, or more rounds are needed. -/
inductive Stop
  | running
  | failure (f : Failure)
deriving DecidableEq, Repr

/-- A system call, with a bound for the rounds of its `while` loops. -/
abbrev Call (α : Type) := Outcome Stop α

/-- A step of the kernel. -/
def Call.step {α : Type} (x : Kernel α) : Call α := x.mapError .failure

/-- A loop, which may be not over yet. -/
def Call.loop {α : Type} : Kernel (Option α) → Call α
  | .ok (some a) => .ok a
  | .ok none => .error .running
  | .error e => .error (.failure e)

/-- The addresses of the heap's blocks, and what is in a block before the first store. -/
structure Blocks where
  addr : Nat → Nat
  bytes : Nat → Nat → Byte
  below : ∀ b, addr b + 256 < 0x100000000

/-- The machine and its heap. -/
structure HeapVm where
  vm : Vm
  heap : Heap

/-- A `char *`, with the bytes it points to. -/
structure UserStr where
  ptr : HeapPtr
  bytes : Nat → Byte

/-- A `char **`: its block, and the elements of the array. -/
structure StrArray where
  block : Nat
  elems : List (Option UserStr)

section Array

variable (B : Blocks) (rounds : Nat) (pdir : DirPtr)

/-- The loop of `copy_from_userspace_array` with `rest` rounds left. -/
def arrayStrings (array userArray size : Nat) (words : Nat → Word) :
    Nat → Nat → List (Option UserStr) → HeapVm → Call (Option StrArray × HeapVm)
  | 0, _, elems, m =>
    return (some ⟨array, elems.set (size - 1) none⟩, { m with heap := m.heap.free (.block userArray) })
  | rest + 1, i, elems, m =>
    if words i = 0#32 then return (some ⟨array, elems.set i none⟩, m)
    else do
      let (element, heap) := m.heap.malloc
      let (r, bytes, vm) ← Call.loop (copyFromUserspaceString m.vm pdir (words i) 256#32 (B.addr element)
        (B.bytes element) rounds)
      if r.toInt < 0 then return (none, ⟨vm, (heap.free (.block array)).free (.block userArray)⟩)
      else arrayStrings array userArray size words rest (i + 1) (elems.set i (some ⟨.block element, bytes⟩)) ⟨vm, heap⟩

/-- `copy_from_userspace_array`. -/
def copyFromUserspaceArray (ptr : Word) (size : Nat) (m : HeapVm) : Call (Option StrArray × HeapVm) := do
  let (array, heap) := m.heap.malloc
  let (userArray, heap) := heap.malloc
  let (r, words, vm) ← Call.loop (copyFromUserspacePtrArray m.vm pdir ptr size (B.addr userArray) (fun _ => 0#32)
    rounds)
  if r.toInt < 0 then return (none, ⟨vm, (heap.free (.block array)).free (.block userArray)⟩)
  else arrayStrings B rounds pdir array userArray size words (size - 1) 0 (List.replicate size none) ⟨vm, heap⟩

end Array

/-! ## What the user has there -/

/-- Word `i` from `ptr` on, as the user sees it. -/
def userWord (vm : Vm) (pdir : DirPtr) (ptr : Word) (i : Nat) : Word :=
  wordOf fun k => userByte vm pdir ptr (i * 4 + k)

/-- The first `m` words from `ptr` on are in pages of the user, and none is 0. -/
def NoNull (vm : Vm) (pdir : DirPtr) (ptr : Word) (m : Nat) : Prop :=
  ∀ i < m, UserAt vm pdir ptr (i * 4) ∧ userWord vm pdir ptr i ≠ 0#32

/-- What a call for `n` words returns: -1 when a page is missing before the end, the number of words before a 0, or
one word less than the buffer holds. -/
def PtrResult (vm : Vm) (pdir : DirPtr) (ptr : Word) (n : Nat) (r : Word) (words : Nat → Word) : Prop :=
  (∃ k ≤ n, NoNull vm pdir ptr k ∧ ¬ UserAt vm pdir ptr (k * 4) ∧ r = 0xFFFFFFFF#32) ∨
  (∃ k < n, NoNull vm pdir ptr k ∧ UserAt vm pdir ptr (k * 4) ∧ userWord vm pdir ptr k = 0#32 ∧
    r = BitVec.ofNat 32 k ∧ ∀ i ≤ k, words i = userWord vm pdir ptr i) ∨
  (NoNull vm pdir ptr n ∧ UserAt vm pdir ptr (n * 4) ∧ r = BitVec.ofNat 32 n - 1#32 ∧
    ∀ i < n, words i = userWord vm pdir ptr i)

/-! ## The words of a page -/

section Words

variable {vm u u' : Vm} {kptr addr n rest i : Nat} {word buffer : Nat → Word}

/-- Where the `for` loop of one page stops. -/
def WordsResult (word : Nat → Word) (n : Nat) (u' : Vm) (rest i : Nat) : PtrRet ⊕ (Nat × (Nat → Word)) → Prop
  | .inl (r, b, v) => v = u' ∧
      ((∃ k, i ≤ k ∧ k < n ∧ k < i + rest ∧ (∀ l, i ≤ l → l < k → word l ≠ 0#32) ∧ word k = 0#32 ∧
          r = BitVec.ofNat 32 k ∧ ∀ l ≤ k, b l = word l) ∨
        n < i + rest ∧ (∀ l, i ≤ l → l < n → word l ≠ 0#32) ∧ r = BitVec.ofNat 32 n - 1#32 ∧ ∀ l < n, b l = word l)
  | .inr (k, b) => k = i + rest ∧ k ≤ n ∧ (∀ l, i ≤ l → l < k → word l ≠ 0#32) ∧ ∀ l < k, b l = word l

theorem ptrWords_spec (hun : unmapFromKernel kptr 1 u = .ok u') (haddr : addr + n * 4 < 0x100000000) (hi : i ≤ n)
    (hload : ∀ l < rest, kernelLoadWord u (kptr + (4096 - (rest - l) * 4)) = .ok (word (i + l)))
    (hb : ∀ l < i, buffer l = word l) :
    ∃ x, ptrWords u kptr addr n rest i buffer = .ok x ∧ WordsResult word n u' rest i x := by
  induction rest generalizing i buffer with
  | zero => exact ⟨_, rfl, rfl, hi, fun l h1 h2 => absurd h2 (by omega), hb⟩
  | succ rest ih =>
    unfold ptrWords
    by_cases hfull : i = n
    · subst hfull
      rw [if_pos (Nat.le_refl _)]
      simp only [hun, ok_bind]
      exact ⟨_, rfl, rfl, Or.inr ⟨by omega, fun l h1 h2 => absurd h2 (by omega), rfl, hb⟩⟩
    · rw [if_neg (by omega)]
      have hword : kernelLoadWord u (kptr + (4096 - (rest + 1) * 4)) = .ok (word i) := hload 0 (by omega)
      have hstore : storeWord n buffer i (word i) = .ok (Function.update buffer i (word i)) := if_pos (by omega)
      have hcopied : ∀ l < i + 1, Function.update buffer i (word i) l = word l := by
        intro l hl
        by_cases hli : l = i
        · rw [hli, Function.update_self]
        · rw [Function.update_of_ne hli, hb l (by omega)]
      simp only [hword, hstore, ok_bind]
      by_cases hzero : word i = 0#32
      · rw [if_pos hzero]
        simp only [hun, ok_bind]
        exact ⟨_, rfl, rfl, Or.inl ⟨i, Nat.le_refl i, by omega, by omega, fun l h1 h2 => absurd h2 (by omega), hzero,
          rfl, fun l hl => hcopied l (by omega)⟩⟩
      · rw [if_neg hzero]
        have hloadNext : ∀ l < rest, kernelLoadWord u (kptr + (4096 - (rest - l) * 4)) = .ok (word (i + 1 + l)) := by
          intro l hl
          have hl' := hload (l + 1) (by omega)
          rwa [show rest + 1 - (l + 1) = rest - l by omega, show i + (l + 1) = i + 1 + l by omega] at hl'
        have hprev : ∀ {m}, (∀ l, i + 1 ≤ l → l < m → word l ≠ 0#32) → ∀ l, i ≤ l → l < m → word l ≠ 0#32 := by
          intro m h l h1 h2
          by_cases hli : l = i
          · rw [hli]
            exact hzero
          · exact h l (by omega) h2
        obtain ⟨x, hx, hres⟩ := ih (i := i + 1) (by omega) hloadNext hcopied
        refine ⟨x, hx, ?_⟩
        match x, hres with
        | .inl (r, b, v), ⟨hv, hcase⟩ =>
          refine ⟨hv, ?_⟩
          rcases hcase with ⟨k, h1, h2, h3, h4, h5⟩ | ⟨h1, h2, h3⟩
          · exact Or.inl ⟨k, by omega, h2, by omega, hprev h4, h5⟩
          · exact Or.inr ⟨by omega, hprev h2, h3⟩
        | .inr (k, b), ⟨h1, h2, h3, h4⟩ => exact ⟨by omega, h2, hprev h3, h4⟩

end Words

/-! ## The pages -/

section Pages

variable {vm u v : Vm} {a j addr n i rounds : Nat} {ptr r : Word} {b words : Nat → Word}

/-- The bytes of a word that lies in a page. -/
theorem kernelLoadWord_eq {va : Nat} {byte : Nat → Byte} (h : ∀ k < 4, kernelLoad u (va + k) = .ok (byte k)) :
    kernelLoadWord u va = .ok (wordOf byte) := by
  have h0 := h 0 (by omega)
  rw [Nat.add_zero] at h0
  simp only [kernelLoadWord, h0, h 1 (by omega), h 2 (by omega), h 3 (by omega), ok_bind]
  rfl

/-- **The rounds of the `while` loop** from the one that starts with word `i` on, if they come to an end. -/
theorem ptrPages_spec (hk : KernelTables vm) (hd : TablesAgree (vm.dirs (.user a))) (hj : j + 1 < 0x100000)
    (hfree : vm.entry .kernel j = 0#32) (haddr : addr + n * 4 < 0x100000000) (hal : ptr.toNat % 4 = 0) (hi : i ≤ n)
    (hno : NoNull vm (.user a) ptr i) (hs : SameBut j 1 vm u) (hf : u.frames = vm.frames)
    (hb : ∀ l < i, b l = userWord vm (.user a) ptr l)
    (hret : ptrPages (.user a) (j * 4096) addr n rounds (byteAddr ptr (i * 4) / 4096 * 4096)
      (byteAddr ptr (i * 4) % 4096) i b u = .ok (some (r, words, v))) :
    PtrResult vm (.user a) ptr n r words ∧ Restored vm v ∧ v.frames = vm.frames := by
  induction rounds generalizing i b u with
  | zero => cases hret
  | succ rounds ih =>
    have hoff : byteAddr ptr (i * 4) % 4096 % 4 = 0 := by unfold byteAddr; omega
    obtain ⟨done, u₁, hmap, hs₁, hf₁, ⟨rfl, hat, hpage⟩ | ⟨rfl, hbad⟩⟩ := mapRound hk hd (by omega) hs hf ptr (i * 4)
    · obtain ⟨u₂, hun, hrest₂, hf₂⟩ := unmapScratch hk (by omega) hs₁ hfree
      generalize hoffset : byteAddr ptr (i * 4) % 4096 = o at hoff hpage hret
      have ho : o < 4096 := by omega
      obtain ⟨m, hm⟩ : ∃ m, 4096 - o = m * 4 := ⟨(4096 - o) / 4, by omega⟩
      have hcount : ((j * 4096 + 4096) % 0x100000000 - (j * 4096 + o)) / 4 = m := by omega
      -- the words up to the end of the page
      have hload : ∀ l < m, kernelLoadWord u₁ (j * 4096 + (4096 - (m - l) * 4)) =
          .ok (userWord vm (.user a) ptr (i + l)) := by
        intro l hl
        refine kernelLoadWord_eq fun k hk4 => ?_
        have hbyte := (hpage (l * 4 + k) (by omega)).2
        rwa [show j * 4096 + (o + (l * 4 + k)) = j * 4096 + (4096 - (m - l) * 4) + k by omega,
          show i * 4 + (l * 4 + k) = (i + l) * 4 + k by omega] at hbyte
      have huser : ∀ l, i ≤ l → l < i + m → UserAt vm (.user a) ptr (l * 4) := by
        intro l h1 h2
        have hl := (hpage ((l - i) * 4) (by omega)).1
        rwa [show i * 4 + (l - i) * 4 = l * 4 by omega] at hl
      have hnoNull : ∀ {k}, k ≤ i + m → (∀ l, i ≤ l → l < k → userWord vm (.user a) ptr l ≠ 0#32) →
          NoNull vm (.user a) ptr k := by
        intro k hkm hall l hl
        by_cases hli : l < i
        · exact hno l hli
        · exact ⟨huser l (by omega) (by omega), hall l (by omega) hl⟩
      obtain ⟨x, hwords, hres⟩ := ptrWords_spec hun haddr hi hload hb
      simp only [ptrPages, hmap, ok_bind, if_true, hcount, hwords] at hret
      match x, hres with
      | .inl (r', b', v'), ⟨hv, hcase⟩ =>
        simp only [pure, Except.pure, Except.ok.injEq, Option.some.injEq, Prod.mk.injEq] at hret
        obtain ⟨rfl, rfl, rfl⟩ := hret
        subst hv
        refine ⟨?_, hrest₂, hf₂.trans hf₁⟩
        rcases hcase with ⟨k, h1, h2, h3, h4, h5, h6, h7⟩ | ⟨h1, h2, h3, h4⟩
        · exact Or.inr (Or.inl ⟨k, h2, hnoNull (by omega) h4, huser k h1 h3, h5, h6, h7⟩)
        · exact Or.inr (Or.inr ⟨hnoNull (by omega) h2, huser n hi h1, h3, h4⟩)
      | .inr (k, b'), ⟨h1, h2, h3, h4⟩ =>
        have hnext : (byteAddr ptr (i * 4) / 4096 * 4096 + 4096) % 0x100000000 =
            byteAddr ptr (k * 4) / 4096 * 4096 ∧ 0 = byteAddr ptr (k * 4) % 4096 := by
          unfold byteAddr at hoffset ⊢
          omega
        simp only [hnext.1] at hret
        rw [hnext.2] at hret
        exact ih h2 (hnoNull h1.le h3) hs₁ hf₁ h4 hret
    · obtain ⟨u₂, hun, hrest₂, hf₂⟩ := unmapScratch hk (by omega) hs₁ hfree
      simp only [ptrPages, hmap, ok_bind, hun, Bool.false_eq_true, if_false, pure, Except.pure, Except.ok.injEq,
        Option.some.injEq, Prod.mk.injEq] at hret
      obtain ⟨rfl, -, rfl⟩ := hret
      exact ⟨Or.inl ⟨i, hi, hno, hbad, rfl⟩, hrest₂, hf₂.trans hf₁⟩

end Pages

/-! ## Calls one after the other -/

@[simp] theorem Call.step_ok {α : Type} {x : Kernel α} {a : α} : Call.step x = .ok a ↔ x = .ok a := by
  cases x with
  | ok b =>
    show Except.ok b = Except.ok a ↔ Except.ok b = Except.ok a
    rw [Except.ok.injEq, Except.ok.injEq]
  | error e => simp [Call.step, Except.mapError]

@[simp] theorem Call.loop_ok {α : Type} {x : Kernel (Option α)} {a : α} : Call.loop x = .ok a ↔ x = .ok (some a) := by
  match x with
  | .ok (some b) => simp [Call.loop]
  | .ok none => simp [Call.loop]
  | .error e => simp [Call.loop]

/-- The directories and the memory are as before. -/
structure Untouched (vm vm' : Vm) : Prop where
  restored : Restored vm vm'
  frames : vm'.frames = vm.frames

/-- A string at `ptr` fits into `n` bytes. -/
def ReadsString (vm : Vm) (pdir : DirPtr) (ptr : Word) (n : Nat) : Prop := ∃ k, UserString vm pdir ptr k ∧ k + 1 ≤ n

/-- What the callers see to: the kernel directory is as `vmm_init` leaves it and has a free page below the last one, and
the user directory passes the checks of `dump_directory`. -/
structure ReadCall (vm : Vm) (a : Nat) : Prop where
  kernel : KernelTables vm
  agree : TablesAgree (vm.dirs (.user a))
  scratch : ∃ j, 1 ≤ j ∧ j < 0xFFFFF ∧ vm.entry .kernel j = 0#32

section Calls

variable {vm u v : Vm} {a addr n rounds : Nat} {ptr r : Word} {buffer b : Nat → Byte} {words init : Nat → Word}

theorem Untouched.refl (vm : Vm) : Untouched vm vm := ⟨SameBut.refl, rfl⟩

theorem Untouched.trans (h : Untouched vm u) (h' : Untouched u v) : Untouched vm v := by
  obtain ⟨⟨h1, h2, h3, h4, h5, h6, h7⟩, hf⟩ := h
  obtain ⟨⟨g1, g2, g3, g4, g5, g6, g7⟩, gf⟩ := h'
  exact ⟨⟨g1.trans h1, g2.trans h2, fun b => (g3 b).trans (h3 b), fun k => (g4 k).trans (h4 k),
    fun k => (g5 k).trans (h5 k), g6.trans h6, fun m hm => (g7 m hm).trans (h7 m hm)⟩, gf.trans hf⟩

theorem Untouched.readCall (h : Untouched vm u) (hc : ReadCall vm a) : ReadCall u a := by
  refine ⟨h.restored.kernelTables hc.kernel, by rw [h.restored.user]; exact hc.agree, ?_⟩
  obtain ⟨j, h1, h2, hfree⟩ := hc.scratch
  exact ⟨j, h1, h2, by rw [h.restored.entry j (Or.inr (Nat.zero_le _)), hfree]⟩

theorem Untouched.userAt (h : Untouched vm u) (i : Nat) : UserAt u (.user a) ptr i ↔ UserAt vm (.user a) ptr i := by
  unfold UserAt
  rw [h.restored.entry_user]

theorem Untouched.userByte (h : Untouched vm u) (i : Nat) :
    userByte u (.user a) ptr i = userByte vm (.user a) ptr i := by
  unfold Syscall.userByte userPlace
  rw [h.restored.entry_user, h.frames]

theorem Untouched.readsString (h : Untouched vm u) :
    ReadsString u (.user a) ptr n ↔ ReadsString vm (.user a) ptr n := by
  refine exists_congr fun k => and_congr_left fun _ => ⟨fun hs => ?_, fun hs => ?_⟩
  · exact ⟨fun i hi => (h.userAt i).1 (hs.user i hi), fun i hi => h.userByte (a := a) i ▸ hs.bytes i hi,
      h.userByte (a := a) k ▸ hs.nul⟩
  · exact ⟨fun i hi => (h.userAt i).2 (hs.user i hi), fun i hi => (h.userByte i).symm ▸ hs.bytes i hi,
      (h.userByte k).symm ▸ hs.nul⟩

/-- A call of `copy_from_userspace_string` that returns. -/
theorem copyFromUserspaceString_returns (hc : ReadCall vm a) (hn : 0 < n) (hn' : n ≤ 0x80000000)
    (hfits : addr + n < 0x100000000)
    (hret : copyFromUserspaceString vm (.user a) ptr (BitVec.ofNat 32 n) addr buffer rounds = .ok (some (r, b, v))) :
    (0 ≤ r.toInt ↔ ReadsString vm (.user a) ptr n) ∧ Untouched vm v := by
  have hnat : (BitVec.ofNat 32 n).toNat = n := by
    rw [BitVec.toNat_ofNat]
    omega
  obtain ⟨hptr, haddr⟩ : ptr ≠ 0#32 ∧ addr ≠ 0 := by
    simp only [copyFromUserspaceString, bind_eq_ok, assert_eq_ok] at hret
    exact hret.choose_spec.1
  obtain ⟨j, u, hfind, hj1, hj, hs, hf, hfree⟩ := findVspace_scratch_one hc.kernel hc.scratch
  have hkptr : j * 4096 ≠ 0 := by omega
  have hnone : NoNul vm (.user a) ptr 0 := fun i hi => absurd hi (Nat.not_lt_zero i)
  have hcopied : CopiedTo (userByte vm (.user a) ptr) n buffer 0 buffer :=
    ⟨fun l hl => absurd hl (Nat.not_lt_zero l), fun _ _ => rfl⟩
  obtain ⟨rounds', hres⟩ := stringPages_spec hc.kernel hc.agree hj hfree hfits hn hnone hs hf hcopied
  rw [← hnat, ← copyFromUserspaceString_eq hptr haddr hfind hkptr] at hres
  have hstart : copyFromUserspaceString vm (.user a) ptr (BitVec.ofNat 32 n) addr buffer rounds' = _ :=
    copyFromUserspaceString_eq hptr haddr hfind hkptr rounds'
  rcases hres with ⟨k, c, u', hstr, hkn, hx, -, hrest, hf'⟩ | ⟨-, hx⟩ | ⟨-, hno, c, u', hx, -, hrest, hf'⟩
  · have hset := CopiesString.settled hret hptr haddr hfind hkptr (hstart.symm.trans hx) (by simp)
    simp only [Except.ok.injEq, Option.some.injEq, Prod.mk.injEq] at hset
    obtain ⟨rfl, -, rfl⟩ := hset
    rw [hnat] at hkn
    refine ⟨⟨fun _ => ⟨k, hstr, hkn⟩, fun _ => ?_⟩, hrest, hf'⟩
    rw [BitVec.toInt_eq_toNat_of_lt] <;> rw [BitVec.toNat_ofNat] <;> omega
  · have hset := CopiesString.settled hret hptr haddr hfind hkptr (hstart.symm.trans hx) (by simp)
    cases hset
  · have hset := CopiesString.settled hret hptr haddr hfind hkptr (hstart.symm.trans hx) (by simp)
    simp only [Except.ok.injEq, Option.some.injEq, Prod.mk.injEq] at hset
    obtain ⟨rfl, -, rfl⟩ := hset
    rw [hnat] at hno
    refine ⟨⟨fun hr => absurd hr (by decide), ?_⟩, hrest, hf'⟩
    rintro ⟨k, hstr, hkn⟩
    exact absurd hkn (hno k hstr)

/-- A call of `copy_from_userspace_ptr_array` that returns. -/
theorem copyFromUserspacePtrArray_returns (hc : ReadCall vm a) (hptr : ptr ≠ 0#32) (haddr : addr + n * 4 < 0x100000000)
    (hret : copyFromUserspacePtrArray vm (.user a) ptr n addr init rounds = .ok (some (r, words, v))) :
    (ptr.toNat % 4 ≠ 0 ∧ r = 0xFFFFFFFF#32 ∨
      ptr.toNat % 4 = 0 ∧ PtrResult vm (.user a) ptr n r words) ∧ Untouched vm v := by
  simp only [copyFromUserspacePtrArray, bind_eq_ok, assert_eq_ok, if_neg hptr] at hret
  obtain ⟨-, hne, hret⟩ := hret
  by_cases hal : ptr.toNat % 4 ≠ 0
  · rw [if_pos hal] at hret
    simp only [pure_eq_ok, Option.some.injEq, Prod.mk.injEq] at hret
    obtain ⟨rfl, -, rfl⟩ := hret
    exact ⟨Or.inl ⟨hal, rfl⟩, .refl _⟩
  · rw [if_neg hal] at hret
    obtain ⟨j, u, hfind, hj1, hj, hs, hf, hfree⟩ := findVspace_scratch_one hc.kernel hc.scratch
    simp only [hfind, ok_bind, if_neg (show j * 4096 ≠ 0 by omega)] at hret
    have hbyte : byteAddr ptr (0 * 4) = ptr.toNat := Nat.mod_eq_of_lt ptr.isLt
    rw [page_toNat, offset_toNat, ← hbyte] at hret
    obtain ⟨hres, hrest, hf'⟩ := ptrPages_spec hc.kernel hc.agree hj hfree haddr (not_not.1 hal)
      (Nat.zero_le n) (fun i hi => absurd hi (Nat.not_lt_zero i)) hs hf (fun l hl => absurd hl (Nat.not_lt_zero l)) hret
    exact ⟨Or.inr ⟨not_not.1 hal, hres⟩, hrest, hf'⟩

end Calls

/-! ## The blocks of an array -/

/-- The strings up to the first `NULL`. -/
def stringsOf : List (Option UserStr) → List UserStr
  | some s :: elems => s :: stringsOf elems
  | _ => []

/-- What the caller of `copy_from_userspace_array` has to free: the array and its strings. -/
def arrayPtrs : Option StrArray → List HeapPtr
  | none => []
  | some array => .block array.block :: (stringsOf array.elems).map (·.ptr)

/-- **No block is left behind** by a call for `size` words at `ptr`: the pointer is misaligned, or a page is missing
before the end of the array, or the first `size - 1` words are not 0 and there is a string that fits at each of them. -/
def ArrayClean (vm : Vm) (pdir : DirPtr) (ptr : Word) (size : Nat) : Prop :=
  ptr.toNat % 4 ≠ 0 ∨
  (∃ k ≤ size, NoNull vm pdir ptr k ∧ ¬ UserAt vm pdir ptr (k * 4)) ∨
  ∀ l < size - 1, userWord vm pdir ptr l ≠ 0#32 ∧ ReadsString vm pdir (userWord vm pdir ptr l) 256

/-- What a call that returns `arr` has done to the machine and to the books of its caller: some blocks stay behind, none
exactly when `clean` holds. -/
def ArrayBooks (vm : Vm) (h : Heap) (held stray : List HeapPtr) (clean : Prop) (arr : Option StrArray) (m' : HeapVm) :
    Prop :=
  Untouched vm m'.vm ∧ ∃ leak, HeapPtr.other ∉ leak ∧ (leak = [] ↔ clean) ∧
    Ledger h m'.heap (leak ++ (arrayPtrs arr ++ held)) stray

section Blocks

variable {vm : Vm} {a rounds array userArray size i rest : Nat} {B : Blocks} {ptr : Word} {words : Nat → Word}
  {m m' : HeapVm} {arr : Option StrArray} {h : Heap} {held stray : List HeapPtr}

theorem stringsOf_append (ss : List UserStr) (elems : List (Option UserStr)) :
    stringsOf (ss.map some ++ none :: elems) = ss := by
  induction ss with
  | nil => rfl
  | cons s ss ih => exact congrArg (s :: ·) ih

/-- A store behind the strings. -/
theorem set_strings (ss : List UserStr) (n : Nat) (e : Option UserStr) :
    (ss.map some ++ List.replicate (n + 1) none).set ss.length e = ss.map some ++ e :: List.replicate n none := by
  rw [List.set_append_right _ _ (by rw [List.length_map]), List.length_map, Nat.sub_self, List.replicate_succ,
    List.set_cons_zero]

/-- **The loop** keeps the books: the strings `ss` are copied, and what is left behind is nothing exactly when the other
words lead to strings that fit. -/
theorem arrayStrings_ledger (hc : ReadCall vm a) (ss : List UserStr) (hm : Untouched vm m.vm)
    (hss : HeapPtr.other ∉ ss.map (·.ptr)) (hi : ss.length = i) (hsize : size = i + rest + 1)
    (hl : Ledger h m.heap (.block userArray :: .block array :: (ss.map (·.ptr) ++ held)) stray)
    (hret : arrayStrings B rounds (.user a) array userArray size words rest i
      (ss.map some ++ List.replicate (rest + 1) none) m = .ok (arr, m')) :
    ArrayBooks vm h held stray
      (∀ l, i ≤ l → l < i + rest → words l ≠ 0#32 ∧ ReadsString vm (.user a) (words l) 256) arr m' := by
  induction rest generalizing ss i m with
  | zero =>
    simp only [arrayStrings, pure_eq_ok, Prod.mk.injEq] at hret
    obtain ⟨rfl, rfl⟩ := hret
    refine ⟨hm, [], List.not_mem_nil, ⟨fun _ l h1 h2 => absurd h2 (by omega), fun _ => rfl⟩, ?_⟩
    rw [show size - 1 = ss.length by omega, set_strings, List.nil_append, arrayPtrs, stringsOf_append]
    exact hl.free
  | succ rest ih =>
    unfold arrayStrings at hret
    by_cases hzero : words i = 0#32
    · -- the array of words stays behind
      rw [if_pos hzero] at hret
      simp only [pure_eq_ok, Prod.mk.injEq] at hret
      obtain ⟨rfl, rfl⟩ := hret
      refine ⟨hm, [.block userArray], by simp, ⟨fun hnil => absurd hnil (List.cons_ne_nil _ _), fun hall => ?_⟩, ?_⟩
      · exact absurd hzero (hall i (Nat.le_refl i) (by omega)).1
      · rw [← hi, set_strings, arrayPtrs, stringsOf_append]
        exact hl
    · rw [if_neg hzero] at hret
      simp only [Heap.malloc, bind_eq_ok, Call.loop_ok, Prod.exists] at hret
      obtain ⟨r, bytes, vm', hstring, hret⟩ := hret
      obtain ⟨hread, hm'⟩ := copyFromUserspaceString_returns (n := 256) (hm.readCall hc) (by omega) (by omega)
        (B.below _) hstring
      rw [hm.readsString] at hread
      have hl' : Ledger h ⟨m.heap.next + 1, m.heap.freed⟩
        (.block m.heap.next :: .block userArray :: .block array :: (ss.map (·.ptr) ++ held)) stray := hl.malloc
      by_cases hr : r.toInt < 0
      · -- the strings and the block of the one that does not fit stay behind
        rw [if_pos hr] at hret
        simp only [pure_eq_ok, Prod.mk.injEq] at hret
        obtain ⟨rfl, rfl⟩ := hret
        refine ⟨hm.trans hm', .block m.heap.next :: ss.map (·.ptr), ?_,
          ⟨fun hnil => absurd hnil (List.cons_ne_nil _ _), fun hall => ?_⟩, ?_⟩
        · rw [List.mem_cons]
          rintro (hother | hother)
          · cases hother
          · exact hss hother
        · have := hread.2 (hall i (Nat.le_refl i) (by omega)).2
          omega
        · refine Ledger.free (Ledger.free (hl'.perm ?_))
          rw [List.perm_iff_count]
          intro q
          simp only [arrayPtrs, List.count_append, List.count_cons, List.count_nil]
          omega
      · rw [if_neg hr, ← hi, set_strings, show ss.map some ++ some (⟨.block m.heap.next, bytes⟩ : UserStr) ::
          List.replicate (rest + 1) none = (ss ++ [(⟨.block m.heap.next, bytes⟩ : UserStr)]).map some ++
            List.replicate (rest + 1) none by simp] at hret
        have hbooks : Ledger h ⟨m.heap.next + 1, m.heap.freed⟩ (.block userArray :: .block array ::
            ((ss ++ [(⟨.block m.heap.next, bytes⟩ : UserStr)]).map (·.ptr) ++ held)) stray := by
          apply hl'.perm
          rw [List.perm_iff_count]
          intro q
          simp only [List.map_append, List.map_cons, List.map_nil, List.count_append, List.count_cons, List.count_nil]
          omega
        obtain ⟨hm'', leak, hother, hleak, hbooks'⟩ := ih (ss ++ [⟨.block m.heap.next, bytes⟩]) (hm.trans hm')
          (by simpa using hss) (by rw [List.length_append, hi]; rfl) (by omega) hbooks hret
        refine ⟨hm'', leak, hother, hleak.trans ⟨fun hall l h1 h2 => ?_,
          fun hall l h1 h2 => hall l (by omega) (by omega)⟩, hbooks'⟩
        by_cases hli : l = i
        · rw [hli]
          exact ⟨hzero, hread.1 (by omega)⟩
        · exact hall l (by omega) (by omega)

/-- The array of words is read up to word `k`, which is the first 0 or the one behind the end. -/
theorem arrayClean_iff_words {k : Nat} {pdir : DirPtr} (hal : ptr.toNat % 4 = 0) (hk : k ≤ size)
    (hno : NoNull vm pdir ptr k) (hat : UserAt vm pdir ptr (k * 4)) (hzero : k < size → userWord vm pdir ptr k = 0#32)
    (hw : ∀ i ≤ k, i < size → words i = userWord vm pdir ptr i) :
    ArrayClean vm pdir ptr size ↔
      ∀ l, 0 ≤ l → l < 0 + (size - 1) → words l ≠ 0#32 ∧ ReadsString vm pdir (words l) 256 := by
  constructor
  · rintro (hbad | ⟨k', hk', hno', hbad⟩ | hall) l - hl
    · exact absurd hal hbad
    · -- a missing page would be in front of word `k`
      rcases Nat.lt_trichotomy k' k with hlt | rfl | hgt
      · exact absurd (hno k' hlt).1 hbad
      · exact absurd hat hbad
      · exact absurd (hzero (by omega)) (hno' k hgt).2
    · by_cases hlk : l ≤ k
      · rw [hw l hlk (by omega)]
        exact hall l (by omega)
      · exact absurd (hzero (by omega)) (hall k (by omega)).1
  · intro hall
    refine Or.inr (Or.inr fun l hl => ?_)
    by_cases hlk : l ≤ k
    · rw [← hw l hlk (by omega)]
      exact hall l (by omega) (by omega)
    · have hword := (hall k (by omega) (by omega)).1
      rw [hw k (Nat.le_refl k) (by omega), hzero (by omega)] at hword
      exact absurd rfl hword

/-- **`copy_from_userspace_array`** leaves blocks behind exactly when `ArrayClean` fails. -/
theorem copyFromUserspaceArray_ledger (hc : ReadCall vm a) (hm : Untouched vm m.vm) (hptr : ptr ≠ 0#32)
    (hpos : 0 < size) (hsize : size ≤ 64) (hl : Ledger h m.heap held stray)
    (hret : copyFromUserspaceArray B rounds (.user a) ptr size m = .ok (arr, m')) :
    ArrayBooks vm h held stray (ArrayClean vm (.user a) ptr size) arr m' := by
  simp only [copyFromUserspaceArray, Heap.malloc, bind_eq_ok, Call.loop_ok, Prod.exists] at hret
  obtain ⟨r, words, vm', hwords, hret⟩ := hret
  have hbelow := B.below (m.heap.next + 1)
  obtain ⟨hres, hm'⟩ := copyFromUserspacePtrArray_returns (hm.readCall hc) hptr (by omega) hwords
  have hl' : Ledger h ⟨m.heap.next + 1 + 1, m.heap.freed⟩ (.block (m.heap.next + 1) :: .block m.heap.next :: held)
    stray := hl.malloc.malloc
  have hat : ∀ k, UserAt m.vm (.user a) ptr k ↔ UserAt vm (.user a) ptr k := fun k => hm.userAt k
  have hword : ∀ l, userWord m.vm (.user a) ptr l = userWord vm (.user a) ptr l := by
    intro l
    unfold userWord
    congr 1
    funext k
    exact hm.userByte _
  have hnoNull : ∀ k, NoNull m.vm (.user a) ptr k ↔ NoNull vm (.user a) ptr k := by
    intro k
    unfold NoNull
    simp only [hat, hword]
  -- -1: nothing was copied
  have hfailed : r = 0xFFFFFFFF#32 → ArrayClean vm (.user a) ptr size →
      ArrayBooks vm h held stray (ArrayClean vm (.user a) ptr size) arr m' := by
    intro hr hclean
    rw [hr, if_pos (by decide)] at hret
    simp only [pure_eq_ok, Prod.mk.injEq] at hret
    obtain ⟨rfl, rfl⟩ := hret
    exact ⟨hm.trans hm', [], List.not_mem_nil, ⟨fun _ => hclean, fun _ => rfl⟩, Ledger.free (Ledger.free (hl'.perm
      (List.Perm.swap _ _ _)))⟩
  -- no less than 0: the loop runs over words that are the user's as far as it gets
  have hloop : 0 ≤ r.toInt → (ArrayClean vm (.user a) ptr size ↔ ∀ l, 0 ≤ l → l < 0 + (size - 1) → words l ≠ 0#32 ∧
      ReadsString vm (.user a) (words l) 256) →
      ArrayBooks vm h held stray (ArrayClean vm (.user a) ptr size) arr m' := by
    intro hr hclean
    have helems : List.replicate size (none : Option UserStr) =
        ([] : List UserStr).map some ++ List.replicate (size - 1 + 1) none := by
      rw [Nat.sub_add_cancel hpos]
      rfl
    rw [if_neg (by omega), helems] at hret
    obtain ⟨hm'', leak, hother, hleak, hbooks⟩ := arrayStrings_ledger hc [] (hm.trans hm') List.not_mem_nil rfl
      (show size = 0 + (size - 1) + 1 by omega) hl' hret
    exact ⟨hm'', leak, hother, hleak.trans hclean.symm, hbooks⟩
  rcases hres with ⟨hal, rfl⟩ | ⟨hal, ⟨k, hk, hno, hbad, rfl⟩ | ⟨k, hk, hno, hat', hzero, rfl, hw⟩ |
    ⟨hno, hat', rfl, hw⟩⟩
  · exact hfailed rfl (Or.inl hal)
  · exact hfailed rfl (Or.inr (Or.inl ⟨k, hk, (hnoNull k).1 hno, fun h => hbad ((hat _).2 h)⟩))
  · refine hloop ?_ (arrayClean_iff_words hal hk.le ((hnoNull k).1 hno) ((hat _).1 hat')
      (fun _ => (hword k).symm.trans hzero) fun i hi _ => (hw i hi).trans (hword i))
    rw [BitVec.toInt_eq_toNat_of_lt] <;> rw [BitVec.toNat_ofNat] <;> omega
  · refine hloop ?_ (arrayClean_iff_words hal le_rfl ((hnoNull size).1 hno) ((hat _).1 hat')
      (fun hlt => absurd hlt (Nat.lt_irrefl _)) fun i _ hi => (hw i hi).trans (hword i))
    have hnat : (BitVec.ofNat 32 size - 1#32).toNat = size - 1 := by
      rw [BitVec.toNat_sub, BitVec.toNat_ofNat, BitVec.toNat_ofNat]
      omega
    rw [BitVec.toInt_eq_toNat_of_lt] <;> rw [hnat] <;> omega

end Blocks

end Myunix.Syscall
