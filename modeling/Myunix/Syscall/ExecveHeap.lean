import Myunix.Syscall.CopyArray

/-!
# The heap blocks of `execve` (`syscall.c`)

`syscall_execve` copies the path to its stack and the two arrays to the heap, opens the file, runs it and frees the
arrays with their strings. Without an array of arguments it makes one whose only string is the path on the stack.

`syscall_execve_heap_iff` says for which calls every block taken is freed once and nothing else is: not when an array
has fewer than 19 strings, because the array of addresses stays behind, not when a string does not fit, and not without
an array of arguments, because the path is freed.

`kopen`, `process_execve` and `fs_close` have blocks of their own, which are not in these books.
-/

namespace Myunix.Syscall

open Lib Vmm Process

/-! ## The code -/

/-- The loop that counts the strings of an array. -/
def countStrings : List (Option UserStr) → Call Nat
  | [] => .error (.failure .bounds)
  | none :: _ => .ok 0
  | some _ :: elems => do
    let argc ← countStrings elems
    return argc + 1

/-- The loop that frees the strings of an array. -/
def freeStrings : List (Option UserStr) → Heap → Call Heap
  | [], _ => .error (.failure .bounds)
  | none :: _, heap => .ok heap
  | some s :: elems, heap => freeStrings elems (heap.free s.ptr)

/-- `if (argv != NULL)` with the loop and the array itself. -/
def freeArray : Option StrArray → Heap → Call Heap
  | none, heap => .ok heap
  | some argv, heap => do
    let heap ← freeStrings argv.elems heap
    return heap.free (.block argv.block)

/-- What the call works with: the blocks of the heap, the local array `path`, and the functions of the file system and
of `process.c`, over the rest `σ` of the kernel's state and their files `ν`. -/
structure ExecveEnv (σ ν : Type) where
  blocks : Blocks
  pathAddr : Nat
  pathBytes : Nat → Byte
  pathBelow : pathAddr + 256 < 0x100000000
  kopen : (Nat → Byte) → Vm → σ → Kernel (Option ν × Vm × σ)
  processExecve : ν → Nat → Option StrArray → Nat → Option StrArray → Vm → σ → Kernel (Vm × σ)
  fsClose : ν → Vm → σ → Kernel (Vm × σ)

section Execve

variable {σ ν : Type} (E : ExecveEnv σ ν) (rounds : Nat) (pdir : DirPtr)

/-- An array of the user with the number of its strings. -/
def copyArgs (user : Word) (m : HeapVm) : Call (Option StrArray × Nat × HeapVm) := do
  let (argv, m) ← copyFromUserspaceArray E.blocks rounds pdir user 20 m
  match argv with
  | none => return (none, 0, m)
  | some argv =>
    let argc ← countStrings argv.elems
    return (some argv, argc, m)

/-- `argv` and `argc`. -/
def execveArgv (userArgv : Word) (path : Nat → Byte) (m : HeapVm) : Call (Option StrArray × Nat × HeapVm) :=
  if userArgv = 0#32 then
    let (argv, heap) := m.heap.malloc
    return (some ⟨argv, [some ⟨.other, path⟩, none]⟩, 1, { m with heap := heap })
  else copyArgs E rounds pdir userArgv m

/-- `envp` and `envc`. -/
def execveEnvp (userEnvp : Word) (m : HeapVm) : Call (Option StrArray × Nat × HeapVm) :=
  if userEnvp = 0#32 then return (none, 0, m) else copyArgs E rounds pdir userEnvp m

/-- `syscall_execve`: `ebx`, `ecx` and `edx` are the path, the arguments and the environment. -/
def syscallExecve (ebx ecx edx : Word) (m : HeapVm) (s : σ) : Call (Word × HeapVm × σ) := do
  let (r, path, vm) ← Call.loop (copyFromUserspaceString m.vm pdir ebx 256#32 E.pathAddr E.pathBytes rounds)
  if r.toInt < 0 then return (0xFFFFFFFF#32, { m with vm := vm }, s)
  else
    let path := Function.update path 255 0#8
    let (argv, argc, m) ← execveArgv E rounds pdir ecx path { m with vm := vm }
    let (envp, envc, m) ← execveEnvp E rounds pdir edx m
    let (f, vm, s) ← Call.step (E.kopen path m.vm s)
    match f with
    | none =>
      let heap ← freeArray argv m.heap
      let heap ← freeArray envp heap
      return (2#32, ⟨vm, heap⟩, s)
    | some f =>
      let (vm, s) ← Call.step (E.processExecve f argc argv envc envp vm s)
      let (vm, s) ← Call.step (E.fsClose f vm s)
      let heap ← freeArray argv m.heap
      let heap ← freeArray envp heap
      return (0#32, ⟨vm, heap⟩, s)

end Execve

/-! ## What is freed -/

/-- The path is copied: a page of the kernel directory is free for it below the last one, and there is a string that
fits. -/
def PathRead (vm : Vm) (pdir : DirPtr) (ebx : Word) : Prop :=
  (∃ j, 1 ≤ j ∧ j < 0xFFFFF ∧ vm.entry .kernel j = 0#32) ∧ ReadsString vm pdir ebx 256

/-- **The books of a call are even**: the path is not copied, or there is an array of arguments, and neither it nor the
environment leaves a block behind. -/
def HeapClean (vm : Vm) (pdir : DirPtr) (ebx ecx edx : Word) : Prop :=
  PathRead vm pdir ebx →
    ecx ≠ 0#32 ∧ ArrayClean vm pdir ecx 20 ∧ (edx ≠ 0#32 → ArrayClean vm pdir edx 20)

section Books

variable {σ ν : Type} {E : ExecveEnv σ ν} {vm v : Vm} {a rounds argc addr : Nat} {r user : Word} {m m' : HeapVm}
  {argv envp : Option StrArray} {elems : List (Option UserStr)} {h heap heap' : Heap} {held stray : List HeapPtr}
  {buffer path b : Nat → Byte}

theorem freeStrings_ok (hret : freeStrings elems heap = .ok heap') :
    heap' = heap.freeAll ((stringsOf elems).map (·.ptr)) := by
  induction elems generalizing heap with
  | nil => cases hret
  | cons e elems ih =>
    cases e with
    | none =>
      cases hret
      rfl
    | some s => exact ih hret

/-- An array is freed with its strings. -/
theorem freeArray_ledger (hl : Ledger h heap (arrayPtrs argv ++ held) stray) (hret : freeArray argv heap = .ok heap') :
    Ledger h heap' held stray := by
  cases argv with
  | none =>
    cases hret
    exact hl
  | some argv =>
    simp only [freeArray, bind_eq_ok, pure_eq_ok] at hret
    obtain ⟨heap₁, hstrings, rfl⟩ := hret
    have heq := freeStrings_ok hstrings
    subst heq
    refine (Ledger.freeAll (hl.perm ?_)).free
    rw [List.perm_iff_count]
    intro q
    simp only [arrayPtrs, List.count_append, List.count_cons]
    omega

/-- The search for a scratch page finds none below the last one, and the path is not copied. -/
theorem copyFromUserspaceString_unread (hk : KernelTables vm) (hd : TablesAgree (vm.dirs (.user a)))
    (hused : ¬ ∃ j, 1 ≤ j ∧ j < 0xFFFFF ∧ vm.entry .kernel j = 0#32)
    (hret : copyFromUserspaceString vm (.user a) user 256#32 addr buffer rounds = .ok (some (r, b, v))) :
    r.toInt < 0 := by
  obtain ⟨hptr, haddr⟩ : user ≠ 0#32 ∧ addr ≠ 0 := by
    simp only [copyFromUserspaceString, bind_eq_ok, assert_eq_ok] at hret
    exact hret.choose_spec.1
  rcases findVspace_cases hk Nat.one_ne_zero (by omega) with ⟨hfind, -⟩ | ⟨j, u, hfind, hj1, hj, hfree, -, hcase⟩
  · -- `-1` is not aligned
    rw [copyFromUserspaceString_eq hptr haddr hfind (by decide)] at hret
    cases rounds with
    | zero => cases hret
    | succ rounds =>
      simp only [stringPages, mapUserspaceToKernel, bind_eq_ok, assert_eq_ok] at hret
      obtain ⟨-, ⟨-, ⟨-, hal, -⟩, -⟩, -⟩ := hret
      exact absurd hal (by decide)
  · have hentry := hfree 0 (by omega)
    rw [Nat.add_zero, Nat.mod_eq_of_lt hj] at hentry
    have hlast : j = 0xFFFFF := by
      by_contra hne
      exact hused ⟨j, hj1, by omega, hentry⟩
    subst hlast
    obtain rfl : u = vm := by
      rcases hcase with ⟨hlt, -⟩ | ⟨-, hu⟩
      · omega
      · exact hu
    rw [copyFromUserspaceString_eq hptr haddr hfind (by omega)] at hret
    have hbuffer : ∀ l, 256 ≤ l → buffer l = buffer l := fun _ _ => rfl
    by_cases hall : ∀ d, UserAt u (.user a) user (d * 4096)
    · have hruns : lastPages a user addr 256 rounds 0 (byteAddr user 0 % 4096) buffer u = .ok none :=
        lastPages_runs hk hd hentry (by omega) SameBut.refl rfl hbuffer hall rounds 0 _
      rw [lastPages, Nat.zero_mul] at hruns
      cases hruns.symm.trans hret
    · push Not at hall
      obtain ⟨d, hd'⟩ := hall
      rw [← Nat.zero_add d] at hd'
      obtain ⟨rounds', b', u', hx, -⟩ := lastPages_ends hk hd hentry (show 0 < 256 by omega) SameBut.refl rfl hbuffer hd'
        addr (byteAddr user 0 % 4096)
      rw [lastPages, Nat.zero_mul] at hx
      change stringPages (.user a) (0xFFFFF * 4096) addr 256 rounds _ _ 0 buffer u = _ at hret
      have hset := stringPages_settled (fun hc => by rw [hx] at hc; cases hc) (fun hc => by rw [hret] at hc; cases hc)
      rw [hx, hret, Except.ok.injEq, Option.some.injEq, Prod.mk.injEq] at hset
      rw [← hset.1]
      decide

/-- The path. -/
theorem pathRead_iff (hk : KernelTables vm) (hd : TablesAgree (vm.dirs (.user a))) (hbelow : addr + 256 < 0x100000000)
    (hret : copyFromUserspaceString vm (.user a) user 256#32 addr buffer rounds = .ok (some (r, b, v))) :
    (¬ r.toInt < 0 ↔ PathRead vm (.user a) user) ∧ (¬ r.toInt < 0 → ReadCall vm a ∧ Untouched vm v) := by
  by_cases hfree : ∃ j, 1 ≤ j ∧ j < 0xFFFFF ∧ vm.entry .kernel j = 0#32
  · have hc : ReadCall vm a := ⟨hk, hd, hfree⟩
    obtain ⟨hread, huntouched⟩ := copyFromUserspaceString_returns (n := 256) hc (by omega) (by omega) hbelow hret
    refine ⟨⟨fun hr => ⟨hfree, hread.1 (by omega)⟩, fun hpath hr => ?_⟩, fun _ => ⟨hc, huntouched⟩⟩
    have := hread.2 hpath.2
    omega
  · have hr := copyFromUserspaceString_unread hk hd hfree hret
    exact ⟨⟨fun hnot => absurd hr hnot, fun hpath => absurd hpath.1 hfree⟩, fun hnot => absurd hr hnot⟩

/-- An array of the user. -/
theorem copyArgs_ledger (hc : ReadCall vm a) (hm : Untouched vm m.vm) (huser : user ≠ 0#32)
    (hl : Ledger h m.heap held stray) (hret : copyArgs E rounds (.user a) user m = .ok (argv, argc, m')) :
    ArrayBooks vm h held stray (ArrayClean vm (.user a) user 20) argv m' := by
  simp only [copyArgs, bind_eq_ok, Prod.exists] at hret
  obtain ⟨arr, m₁, hcopy, hret⟩ := hret
  have hbooks := copyFromUserspaceArray_ledger hc hm huser (by omega) (by omega) hl hcopy
  cases arr with
  | none =>
    simp only [pure_eq_ok, Prod.mk.injEq] at hret
    obtain ⟨rfl, -, rfl⟩ := hret
    exact hbooks
  | some arr =>
    simp only [bind_eq_ok, pure_eq_ok, Prod.mk.injEq] at hret
    obtain ⟨n, -, rfl, -, rfl⟩ := hret
    exact hbooks

/-- The environment; without one there is nothing to free. -/
theorem execveEnvp_ledger (hc : ReadCall vm a) (hm : Untouched vm m.vm) (hl : Ledger h m.heap held stray)
    (hret : execveEnvp E rounds (.user a) user m = .ok (envp, argc, m')) :
    ArrayBooks vm h held stray (user ≠ 0#32 → ArrayClean vm (.user a) user 20) envp m' := by
  unfold execveEnvp at hret
  by_cases huser : user = 0#32
  · rw [if_pos huser] at hret
    simp only [pure_eq_ok, Prod.mk.injEq] at hret
    obtain ⟨rfl, -, rfl⟩ := hret
    exact ⟨hm, [], List.not_mem_nil, ⟨fun _ hne => absurd huser hne, fun _ => rfl⟩, hl⟩
  · rw [if_neg huser] at hret
    obtain ⟨hm', leak, hother, hleak, hbooks⟩ := copyArgs_ledger hc hm huser hl hret
    exact ⟨hm', leak, hother, hleak.trans ⟨fun hclean _ => hclean, fun hclean => hclean huser⟩, hbooks⟩

/-- The arguments. Without them the path on the stack is going to be freed. -/
theorem execveArgv_ledger (hc : ReadCall vm a) (hm : Untouched vm m.vm) (hl : Ledger h m.heap held stray)
    (hret : execveArgv E rounds (.user a) user path m = .ok (argv, argc, m')) :
    Untouched vm m'.vm ∧ ∃ leak wrong, HeapPtr.other ∉ leak ∧ (∀ p ∈ wrong, p = HeapPtr.other) ∧
      (leak = [] ∧ wrong = [] ↔ user ≠ 0#32 ∧ ArrayClean vm (.user a) user 20) ∧
      Ledger h m'.heap (leak ++ (arrayPtrs argv ++ held)) (wrong ++ stray) := by
  unfold execveArgv at hret
  by_cases huser : user = 0#32
  · rw [if_pos huser] at hret
    simp only [Heap.malloc, pure_eq_ok, Prod.mk.injEq] at hret
    obtain ⟨rfl, -, rfl⟩ := hret
    refine ⟨hm, [], [.other], List.not_mem_nil, fun p hp => List.mem_singleton.1 hp, ⟨?_, ?_⟩, ?_⟩
    · rintro ⟨-, hnil⟩
      cases hnil
    · rintro ⟨hne, -⟩
      exact absurd huser hne
    · exact (hl.borrow .other).malloc
  · rw [if_neg huser] at hret
    obtain ⟨hm', leak, hother, hleak, hbooks⟩ := copyArgs_ledger hc hm huser hl hret
    refine ⟨hm', leak, [], hother, fun p hp => absurd hp List.not_mem_nil, ?_, hbooks⟩
    rw [hleak]
    exact ⟨fun hclean => ⟨huser, hclean.1⟩, fun hclean => ⟨hclean.2, rfl⟩⟩

/-- Blocks on one side, other pointers on the other. -/
theorem perm_wrong {leak wrong : List HeapPtr} (hleak : HeapPtr.other ∉ leak)
    (hwrong : ∀ p ∈ wrong, p = HeapPtr.other) : leak.Perm wrong ↔ leak = [] ∧ wrong = [] := by
  constructor
  · intro hp
    cases wrong with
    | nil => exact ⟨hp.eq_nil, rfl⟩
    | cons p wrong =>
      have hother := hwrong p List.mem_cons_self
      subst hother
      exact absurd (hp.mem_iff.2 List.mem_cons_self) hleak
  · rintro ⟨rfl, rfl⟩
    exact List.Perm.refl []

end Books

/-- **`execve` and the heap.** In a call that returns every block that it and `copy_from_userspace_array` take is freed
once, and nothing else is freed, exactly when `HeapClean` holds of the user's memory. -/
theorem syscall_execve_heap_iff {σ ν : Type} (E : ExecveEnv σ ν) (rounds a : Nat) (ebx ecx edx : Word) (m : HeapVm)
    (s : σ) (hk : KernelTables m.vm) (hd : TablesAgree (m.vm.dirs (.user a))) {r : Word} {m' : HeapVm} {s' : σ}
    (hret : syscallExecve E rounds (.user a) ebx ecx edx m s = .ok (r, m', s')) :
    Heap.Balanced m.heap m'.heap ↔ HeapClean m.vm (.user a) ebx ecx edx := by
  simp only [syscallExecve, bind_eq_ok, Call.loop_ok, Prod.exists] at hret
  obtain ⟨n, path, vm, hpath, hret⟩ := hret
  obtain ⟨hread, hcall⟩ := pathRead_iff hk hd E.pathBelow hpath
  by_cases hn : n.toInt < 0
  · rw [if_pos hn] at hret
    simp only [pure_eq_ok, Prod.mk.injEq] at hret
    obtain ⟨-, rfl, -⟩ := hret
    exact ⟨fun _ hp => absurd hn (hread.2 hp), fun _ => Heap.balanced_refl m.heap⟩
  · rw [if_neg hn] at hret
    simp only [bind_eq_ok, Prod.exists] at hret
    obtain ⟨argv, argc, m₁, hargv, envp, envc, m₂, henvp, f, vm₃, s₃, hkopen, hret⟩ := hret
    obtain ⟨hc, hm⟩ := hcall hn
    have hbooks : Ledger m.heap (⟨vm, m.heap⟩ : HeapVm).heap [] [] := Ledger.refl m.heap
    obtain ⟨hm₁, leakA, wrong, hotherA, hwrong, hleakA, hbooks₁⟩ := execveArgv_ledger hc hm hbooks hargv
    obtain ⟨hm₂, leakE, hotherE, hleakE, hbooks₂⟩ := execveEnvp_ledger hc hm₁ hbooks₁ henvp
    -- on both ways out the two arrays are freed
    have hfreed : ∀ {heap₁ heap₂}, freeArray argv m₂.heap = .ok heap₁ → freeArray envp heap₁ = .ok heap₂ →
        (Heap.Balanced m.heap heap₂ ↔ HeapClean m.vm (.user a) ebx ecx edx) := by
      intro heap₁ heap₂ h1 h2
      have hheld : (leakE ++ (arrayPtrs envp ++ (leakA ++ (arrayPtrs argv ++ [])))).Perm
          (arrayPtrs argv ++ (arrayPtrs envp ++ (leakE ++ leakA))) := by
        rw [List.perm_iff_count]
        intro q
        simp only [List.count_append, List.count_nil]
        omega
      have hbooks := freeArray_ledger (freeArray_ledger (hbooks₂.perm hheld) h1) h2
      have hother : HeapPtr.other ∉ leakE ++ leakA := by
        rw [List.mem_append]
        rintro (hother | hother)
        · exact hotherE hother
        · exact hotherA hother
      rw [hbooks.balanced_iff, List.append_nil, perm_wrong hother hwrong, List.append_eq_nil_iff, hleakE, and_assoc,
        hleakA]
      unfold HeapClean
      constructor
      · exact fun hclean _ => ⟨hclean.2.1, hclean.2.2, hclean.1⟩
      · intro hclean
        obtain ⟨h1, h2, h3⟩ := hclean (hread.1 hn)
        exact ⟨h3, h1, h2⟩
    cases f with
    | none =>
      simp only [bind_eq_ok, pure_eq_ok, Prod.mk.injEq] at hret
      obtain ⟨heap₁, h1, heap₂, h2, -, rfl, -⟩ := hret
      exact hfreed h1 h2
    | some f =>
      simp only [bind_eq_ok, pure_eq_ok, Prod.mk.injEq, Prod.exists] at hret
      obtain ⟨vm₄, s₄, -, vm₅, s₅, -, heap₁, h1, heap₂, h2, -, rfl, -⟩ := hret
      exact hfreed h1 h2

/-! ## Calls on a small machine -/

/-- Blocks of the heap, one in each page. -/
def smallBlocks : Blocks := ⟨fun b => 0x3000 + b % 16 * 4096, fun _ _ => 0xAA#8, fun b => by omega⟩

/-- A system without files. -/
def noFiles : ExecveEnv Unit Unit where
  blocks := smallBlocks
  pathAddr := 0x2000
  pathBytes _ := 0xAA#8
  pathBelow := by omega
  kopen _ vm s := .ok (none, vm, s)
  processExecve _ _ _ _ _ vm s := .ok (vm, s)
  fsClose _ vm s := .ok (vm, s)

/-- The user memory of the calls: the string `/x` at `0x1000`, and at `0x1010` an array with that string. -/
def execveByte (o : Nat) : Byte :=
  match o with
  | 0x00 => 0x2F
  | 0x01 => 0x78
  | 0x11 => 0x10
  | _ => 0

/-- The machine with that memory and an empty heap. -/
def execveVm : HeapVm := ⟨{ openVm with frames := fun _ => execveByte }, ⟨0, []⟩⟩

theorem execveVm_tables : KernelTables execveVm.vm := openVm_tables

theorem execveVm_agree : TablesAgree (execveVm.vm.dirs (.user 0)) :=
  ⟨fun _ h => absurd (show (1#32 : Word) = 0#32 from h) (by decide), fun _ _ => rfl⟩

/-- A call that returns, by what it leaves of the heap. -/
theorem execve_returns (ebx ecx edx r : Word) (heap : Heap)
    (h : (syscallExecve noFiles 2 (.user 0) ebx ecx edx execveVm ⟨⟩).map (fun x => (x.1, x.2.1.heap)) = .ok (r, heap)) :
    ∃ m', syscallExecve noFiles 2 (.user 0) ebx ecx edx execveVm ⟨⟩ = .ok (r, m', ⟨⟩) ∧ m'.heap = heap := by
  cases hrun : syscallExecve noFiles 2 (.user 0) ebx ecx edx execveVm ⟨⟩ with
  | error e =>
    rw [hrun] at h
    cases h
  | ok x =>
    rw [hrun] at h
    obtain ⟨r', m', s⟩ := x
    cases h
    exact ⟨m', rfl, rfl⟩

/-- With a misaligned array of arguments and no environment both arrays are freed. -/
theorem syscall_execve_heap_misaligned : ∃ m', syscallExecve noFiles 2 (.user 0) 0x1000#32 0x1011#32 0#32 execveVm ⟨⟩ =
    .ok (2#32, m', ⟨⟩) ∧ Heap.Balanced execveVm.heap m'.heap := by
  obtain ⟨m', hrun, -⟩ := execve_returns 0x1000#32 0x1011#32 0#32 2#32 ⟨2, [.block 1, .block 0]⟩ (by decide +kernel)
  refine ⟨m', hrun, (syscall_execve_heap_iff noFiles 2 0 _ _ _ execveVm ⟨⟩ execveVm_tables execveVm_agree hrun).2 ?_⟩
  exact fun _ => ⟨by decide, Or.inl (by decide), fun hne => absurd rfl hne⟩

/-- With the arguments `/x` the array of addresses stays behind, and without an array of arguments the path on the stack
is freed. -/
theorem execve_heap_uneven :
    (∃ m', syscallExecve noFiles 2 (.user 0) 0x1000#32 0x1010#32 0#32 execveVm ⟨⟩ = .ok (2#32, m', ⟨⟩) ∧
      m'.heap = ⟨3, [.block 0, .block 2]⟩ ∧ ¬ Heap.Balanced execveVm.heap m'.heap) ∧
    ∃ m', syscallExecve noFiles 2 (.user 0) 0x1000#32 0#32 0#32 execveVm ⟨⟩ = .ok (2#32, m', ⟨⟩) ∧
      m'.heap = ⟨1, [.block 0, .other]⟩ ∧ ¬ Heap.Balanced execveVm.heap m'.heap := by
  constructor
  · obtain ⟨m', hrun, hheap⟩ := execve_returns 0x1000#32 0x1010#32 0#32 2#32 ⟨3, [.block 0, .block 2]⟩
      (by decide +kernel)
    refine ⟨m', hrun, hheap, ?_⟩
    rw [hheap]
    decide
  · obtain ⟨m', hrun, hheap⟩ := execve_returns 0x1000#32 0#32 0#32 2#32 ⟨1, [.block 0, .other]⟩ (by decide +kernel)
    refine ⟨m', hrun, hheap, ?_⟩
    rw [hheap]
    decide

end Myunix.Syscall
