import Myunix.Task.Runs

/-!
# Mutexes over whole runs

`mutex_lock` and `mutex_unlock` are not locked sections: between two of their statements a timer interrupt can switch
to another task, and an interrupt handler can call them on top of the task it interrupts. A run is therefore a list of
single statements. Every context, a task or the interrupt handlers of the idle loop, has a stack of `Frame`s, one for
its own code and one for each handler on top of it; a frame says whether its code holds the mutex and which statement
of a call comes next.

The right to the mutex is a token: it lies in the lock (`lock == 0`), with a frame, or with a task that has been taken
off the queue to get it. `MutexSound` says that there is only one. A call that finds the mutex locked must leave the
processor until it is handed the token; it does if the scheduler lock is not held (`mutex_runs_exclude`), and runs
straight into its assertion if it is (`mutex_lock_under_scheduler_lock`).
-/

namespace Myunix.Task

open Lib

/-! ## Statements -/

/-- The statement of `mutex_lock` or `mutex_unlock` that comes next. -/
inductive MutexPc
  /-- `prev = arch_atomic_swap(mutex->lock, 1)` of `mutex_lock`. -/
  | lockSwap
  /-- The locked section of `mutex_lock`. -/
  | lockBlock
  /-- `assert(mutex->locked_task == NULL)`. -/
  | lockCheck
  /-- `mutex->locked_task = current_task`. -/
  | lockTake
  /-- `prev = arch_atomic_swap(mutex->lock, 1)` and `assert(prev == 1)` of `mutex_unlock`. -/
  | unlockSwap
  /-- `assert(mutex->locked_task == current_task)`. -/
  | unlockCheck
  /-- `mutex->locked_task = NULL`. -/
  | unlockClear
  /-- `mutex->blocked_tasks.first != NULL`. -/
  | unlockTest
  /-- `task_unblock_next(&mutex->blocked_tasks)`. -/
  | unlockNext
  /-- `arch_atomic_swap(mutex->lock, 0)`. -/
  | unlockFree
deriving DecidableEq, Repr

/-- Code that uses the mutex: whether it has locked it, and the call it is in. -/
structure Frame where
  holds : Bool
  call : Option MutexPc
deriving DecidableEq, Repr

/-- The locked section of `mutex_lock`. -/
def mutexBlock (s : Sched) (m : Nat) : Kernel Sched := do
  let s ← schedulerLock s
  let task ← currentTask s
  let s ← rawTaskBlock s (.mutex m) task .blockedLock
  let s ← schedule s
  schedulerUnlock s

/-- One statement of a call by code that holds the mutex or not: the frame after it, and the state. -/
def mutexNext (m : Nat) (s : Sched) (holds : Bool) : MutexPc → Kernel (Frame × Sched)
  | .lockSwap =>
    return (⟨holds, some (if (s.mutexes m).lock ≠ 0#32 then .lockBlock else .lockCheck)⟩,
      s.setMutex m ⟨1#32, (s.mutexes m).lockedTask⟩)
  | .lockBlock => do
    let s ← mutexBlock s m
    return (⟨holds, some .lockCheck⟩, s)
  | .lockCheck => do
    kassert ((s.mutexes m).lockedTask = none)
    return (⟨holds, some .lockTake⟩, s)
  | .lockTake => return (⟨true, none⟩, s.setMutex m ⟨(s.mutexes m).lock, s.current⟩)
  | .unlockSwap => do
    kassert ((s.mutexes m).lock = 1#32)
    return (⟨holds, some .unlockCheck⟩, s.setMutex m ⟨1#32, (s.mutexes m).lockedTask⟩)
  | .unlockCheck => do
    kassert ((s.mutexes m).lockedTask = s.current)
    return (⟨holds, some .unlockClear⟩, s)
  | .unlockClear => return (⟨holds, some .unlockTest⟩, s.setMutex m ⟨(s.mutexes m).lock, none⟩)
  | .unlockTest =>
    return (⟨holds, some (if (s.links.queues (.mutex m)).first ≠ none then .unlockNext else .unlockFree)⟩, s)
  | .unlockNext => do
    let s ← taskUnblockNext s (.mutex m)
    return (⟨holds, none⟩, s)
  | .unlockFree => return (⟨holds, none⟩, s.setMutex m ⟨0#32, (s.mutexes m).lockedTask⟩)

/-! ## Runs of statements -/

/-- The scheduler, and the frames of every context: `none` is `kmain` and the handlers of the idle loop. -/
structure MutexSys where
  sched : Sched
  stack : Option TaskId → List Frame

namespace MutexSys

/-- The frames of the context that runs. -/
def top (x : MutexSys) : List Frame := x.stack x.sched.current

/-- Replace the frames of the context that runs. -/
def setTop (x : MutexSys) (l : List Frame) : MutexSys :=
  { x with stack := Function.update x.stack x.sched.current l }

end MutexSys

/-- What happens next. -/
inductive MutexOp
  /-- Something that does not use the mutex. -/
  | sched (op : SchedOp)
  | mutexLock
  | mutexUnlock
  /-- The next statement of the call. -/
  | next
  /-- An interrupt handler that may use the mutex starts. -/
  | irq
  | iret
deriving DecidableEq, Repr

/-- One step of the context that runs. -/
def mutexStep (m : Nat) (x : MutexSys) : MutexOp → Kernel MutexSys
  | .sched op => do
    let s ← schedStep x.sched op
    return { x with sched := s }
  | .mutexLock =>
    match x.top with
    | f :: rest => return x.setTop (⟨f.holds, some .lockSwap⟩ :: rest)
    | [] => throw .bounds
  | .mutexUnlock =>
    match x.top with
    | _ :: rest => return x.setTop (⟨false, some .unlockSwap⟩ :: rest)
    | [] => throw .bounds
  | .next =>
    match x.top with
    | ⟨holds, some pc⟩ :: rest => do
      let (f, s) ← mutexNext m x.sched holds pc
      return { x.setTop (f :: rest) with sched := s }
    | _ => throw .bounds
  | .irq => return x.setTop (⟨false, none⟩ :: x.top)
  | .iret => return x.setTop x.top.tail

/-- When a step can be made: calls by code outside a call, `mutex_unlock` by the code that has locked the mutex,
interrupts with no locked section open. A handler returns with what it locked unlocked again. -/
def MutexLegal (m : Nat) (x : MutexSys) : MutexOp → Prop
  | .sched op => Legal x.sched op ∧ (∀ reason, op ≠ .taskBlock (.mutex m) reason) ∧ op ≠ .taskUnblockNext (.mutex m) ∧
      (op = .tick ∨ ∃ holds rest, x.top = ⟨holds, none⟩ :: rest)
  | .mutexLock => ∃ holds rest, x.top = ⟨holds, none⟩ :: rest
  | .mutexUnlock => ∃ rest, x.top = ⟨true, none⟩ :: rest
  | .next => ∃ holds pc rest, x.top = ⟨holds, some pc⟩ :: rest
  | .irq => x.sched.lockCount = lockBase x.sched
  | .iret => x.sched.lockCount = lockBase x.sched ∧ ∃ f rest, x.top = ⟨false, none⟩ :: f :: rest

/-- A call of `mutex_lock` that finds the mutex locked is made with the scheduler unlocked. -/
def SwitchesAway (m : Nat) (x : MutexSys) (op : MutexOp) : Prop :=
  op = .next → ∀ holds rest, x.top = ⟨holds, some .lockSwap⟩ :: rest → (x.sched.mutexes m).lock ≠ 0#32 →
    x.sched.lockCount = 0

/-- The code of a context owns the mutex: from its return from `mutex_lock` until `mutex_unlock` gives it up. -/
def Frame.owns (f : Frame) : Bool :=
  f.holds || f.call = some .unlockSwap || f.call = some .unlockCheck || f.call = some .unlockClear

/-- The boot state, with every context in its own code. -/
def mutexBoot (counts : Nat → Word) : MutexSys := ⟨boot counts, fun _ => [⟨false, none⟩]⟩

/-! ## The token -/

/-- The token is with a call from its swap or its hand-over on, and until `mutex_unlock` passes it on. -/
def callTokens : Option MutexPc → Nat
  | none => 0
  | some .lockSwap => 0
  | some .lockBlock => 0
  | some _ => 1

/-- The tokens of some frames; a call that waits in the queue counts as well. -/
def tokens : List Frame → Nat
  | [] => 0
  | f :: rest => (if f.holds then 1 else 0) + callTokens f.call + tokens rest

/-- A context that waits in the queue of the mutex. -/
def waiting (m : Nat) (L : QueuePtr → List TaskId) : Option TaskId → Nat
  | none => 0
  | some t => if t ∈ L (.mutex m) then 1 else 0

/-- What `locked_task` is when the token is with the context `holder`. -/
def lockedBy (stack : Option TaskId → List Frame) : Option (Option TaskId) → Option TaskId
  | none => none
  | some k => if (stack k).any Frame.owns then k else none

/-- **The invariant of a mutex**: there is at most one token, `holder` has it, and it is not in a free lock. -/
structure MutexSound (m : Nat) (x : MutexSys) (L : QueuePtr → List TaskId) (c : Cpu) (holder : Option (Option TaskId)) :
    Prop where
  sound : Sound x.sched L c
  free : (x.sched.mutexes m).lock = 0#32 → holder = none
  tokens : ∀ k, tokens (x.stack k) = (if holder = some k then 1 else 0) + waiting m L k
  owner : (x.sched.mutexes m).lockedTask = lockedBy x.stack holder
  queue : ∀ t ∈ L (.mutex m), ∃ holds rest, x.stack (some t) = ⟨holds, some .lockCheck⟩ :: rest
  unlocked : ∀ t holds rest, x.sched.current = some t → x.stack (some t) = ⟨holds, some .lockBlock⟩ :: rest →
    x.sched.lockCount = 0

section Tokens

variable {f : Frame} {l rest : List Frame} {holds : Bool} {pc : MutexPc}

theorem Frame.tokens_of_owns (h : f.owns = true) : 1 ≤ (if f.holds then 1 else 0) + callTokens f.call := by
  rcases f with ⟨holds, call⟩
  simp only [Frame.owns, Bool.or_eq_true, decide_eq_true_eq] at h
  rcases h with ((rfl | rfl) | rfl) | rfl <;> simp [callTokens]

/-- Frames without a token do not own the mutex. -/
theorem any_owns_eq_false {l : List Frame} (h : Task.tokens l = 0) : l.any Frame.owns = false := by
  induction l with
  | nil => rfl
  | cons f rest ih =>
    rw [Task.tokens] at h
    rw [List.any_cons, ih (by omega), Bool.or_false]
    by_contra hf
    have := Frame.tokens_of_owns (by simpa using hf)
    omega

/-- At most one token, and a call that has it: nothing else does. -/
theorem rest_of_token {n : Nat} (h : Task.tokens (⟨holds, some pc⟩ :: rest) = n) (hn : n ≤ 1)
    (hpc : callTokens (some pc) = 1) : n = 1 ∧ holds = false ∧ Task.tokens rest = 0 := by
  rw [Task.tokens, hpc] at h
  cases holds with
  | false => exact ⟨by simp at h; omega, rfl, by simp at h; omega⟩
  | true => simp at h; omega

end Tokens

section Holder

variable {m : Nat} {x : MutexSys} {L : QueuePtr → List TaskId} {c : Cpu} {holder : Option (Option TaskId)}
  {rest : List Frame} {holds : Bool} {pc : MutexPc}

/-- The context that runs is not in the queue. -/
theorem MutexSound.waiting_eq (h : MutexSound m x L c holder) : waiting m L x.sched.current = 0 := by
  cases hcur : x.sched.current with
  | none => rfl
  | some t =>
    refine if_neg fun hmem => ((h.sound.placed t).of_mem hmem).2.1 ?_
    rw [h.sound.task_eq]; exact hcur

theorem MutexSound.tokens_top (h : MutexSound m x L c holder) :
    Task.tokens x.top = if holder = some x.sched.current then 1 else 0 := by
  rw [MutexSys.top, h.tokens, h.waiting_eq, Nat.add_zero]

/-- A call with the token is the holder. -/
theorem MutexSound.holder_eq (h : MutexSound m x L c holder) (htop : x.top = ⟨holds, some pc⟩ :: rest)
    (hpc : callTokens (some pc) = 1) :
    holder = some x.sched.current ∧ holds = false ∧ Task.tokens rest = 0 ∧ rest.any Frame.owns = false := by
  have ht := h.tokens_top
  rw [htop] at ht
  obtain ⟨h1, h2, h3⟩ := rest_of_token ht (by split <;> omega) hpc
  refine ⟨?_, h2, h3, any_owns_eq_false h3⟩
  by_contra hne
  simp [hne] at h1

/-- `locked_task` while a call has the token. -/
theorem MutexSound.lockedTask_eq (h : MutexSound m x L c holder) (htop : x.top = ⟨holds, some pc⟩ :: rest)
    (hpc : callTokens (some pc) = 1) : (x.sched.mutexes m).lockedTask =
      if Frame.owns ⟨holds, some pc⟩ then x.sched.current else none := by
  obtain ⟨hholder, -, -, hrest⟩ := h.holder_eq htop hpc
  rw [h.owner, hholder, lockedBy, ← MutexSys.top, htop, List.any_cons, hrest, Bool.or_false]

/-- Other frames of the running context that own the mutex if and only if the old ones did. -/
theorem lockedBy_update {l : List Frame} (hl : l.any Frame.owns = x.top.any Frame.owns) :
    lockedBy (Function.update x.stack x.sched.current l) holder = lockedBy x.stack holder := by
  cases holder with
  | none => rfl
  | some k =>
    rcases eq_or_ne k x.sched.current with rfl | hk
    · rw [lockedBy, Function.update_self, hl]; rfl
    · rw [lockedBy, Function.update_of_ne hk]; rfl

/-- A step of the running context on its own frames and on the mutex. -/
theorem mutexSound_local (h : MutexSound m x L c holder) (holder' : Option (Option TaskId)) (v : Mutex)
    {l : List Frame} (hfree : v.lock = 0#32 → holder' = none)
    (htokens : Task.tokens l = if holder' = some x.sched.current then 1 else 0)
    (hothers : ∀ k, k ≠ x.sched.current → (holder' = some k ↔ holder = some k))
    (howner : v.lockedTask = lockedBy (Function.update x.stack x.sched.current l) holder')
    (hblock : ∀ t holds rest, x.sched.current = some t → l = ⟨holds, some .lockBlock⟩ :: rest →
      x.sched.lockCount = 0) :
    MutexSound m { x.setTop l with sched := x.sched.setMutex m v } L c holder' where
  sound := ⟨⟨h.sound.repr, h.sound.placed, h.sound.cpu, h.sound.base, h.sound.ints, h.sound.postponed, h.sound.boot,
    h.sound.idle⟩, h.sound.spin⟩
  free hv := hfree (by simpa using hv)
  tokens k := by
    rcases eq_or_ne k x.sched.current with rfl | hk
    · simpa [MutexSys.setTop, h.waiting_eq] using htokens
    · simpa [MutexSys.setTop, hk, hothers k hk] using h.tokens k
  owner := by simpa [MutexSys.setTop] using howner
  queue t ht := by
    have hne : some t ≠ x.sched.current := by
      intro heq
      have := h.waiting_eq
      rw [← heq, waiting, if_pos ht] at this
      omega
    simpa [MutexSys.setTop, hne] using h.queue t ht
  unlocked t holds rest ht hstack := by
    have ht' : x.sched.current = some t := ht
    apply hblock t holds rest ht'
    simpa [MutexSys.setTop, ht'] using hstack

/-- The same when the mutex and the token stay where they are. -/
theorem mutexSound_frames (h : MutexSound m x L c holder) {l : List Frame} (htokens : Task.tokens l = Task.tokens x.top)
    (howns : l.any Frame.owns = x.top.any Frame.owns)
    (hblock : ∀ t holds rest, x.sched.current = some t → l = ⟨holds, some .lockBlock⟩ :: rest →
      x.sched.lockCount = 0) :
    MutexSound m (x.setTop l) L c holder := by
  have hl := mutexSound_local h holder (x.sched.mutexes m) h.free (htokens.trans h.tokens_top) (fun _ _ => Iff.rfl)
    (by rw [lockedBy_update howns]; exact h.owner) hblock
  rw [Sched.setMutex, Function.update_eq_self] at hl
  exact hl

end Holder

/-! ## Steps -/

section Steps

variable {m : Nat} {x x' : MutexSys} {L : QueuePtr → List TaskId} {c : Cpu} {holder : Option (Option TaskId)}
  {rest : List Frame} {holds : Bool}

/-- The swap of `mutex_lock` takes the token out of a free lock. -/
theorem lockSwap_free (h : MutexSound m x L c holder) (htop : x.top = ⟨holds, some .lockSwap⟩ :: rest)
    (hlock : (x.sched.mutexes m).lock = 0#32) :
    MutexSound m { x.setTop (⟨holds, some .lockCheck⟩ :: rest) with
      sched := x.sched.setMutex m ⟨1#32, (x.sched.mutexes m).lockedTask⟩ } L c (some x.sched.current) := by
  obtain rfl := h.free hlock
  have ht := h.tokens_top
  simp only [htop, Task.tokens, callTokens] at ht
  have hholds : holds = false := by
    cases holds with
    | false => rfl
    | true => simp at ht
  subst hholds
  have hrest : Task.tokens rest = 0 := by simpa using ht
  refine mutexSound_local h _ _ (by simp) ?_ (fun k hk => ?_) ?_ (by simp)
  · simp [Task.tokens, callTokens, hrest]
  · simpa using hk.symm
  · rw [h.owner, lockedBy, lockedBy, Function.update_self, List.any_cons, any_owns_eq_false hrest]
    rfl

/-- The swap of `mutex_lock` on a locked mutex. -/
theorem lockSwap_contended (h : MutexSound m x L c holder) (htop : x.top = ⟨holds, some .lockSwap⟩ :: rest)
    (hcount : x.sched.lockCount = 0) :
    MutexSound m { x.setTop (⟨holds, some .lockBlock⟩ :: rest) with
      sched := x.sched.setMutex m ⟨1#32, (x.sched.mutexes m).lockedTask⟩ } L c holder := by
  refine mutexSound_local h _ _ (by simp) ?_ (fun _ _ => Iff.rfl) ?_ (fun _ _ _ _ _ => hcount)
  · rw [← h.tokens_top, htop]; rfl
  · rw [lockedBy_update (by rw [htop]; rfl)]; exact h.owner

/-- `mutex->locked_task = current_task`. -/
theorem lockTake_sound (h : MutexSound m x L c holder) (htop : x.top = ⟨holds, some .lockTake⟩ :: rest) :
    MutexSound m { x.setTop (⟨true, none⟩ :: rest) with
      sched := x.sched.setMutex m ⟨(x.sched.mutexes m).lock, x.sched.current⟩ } L c holder := by
  obtain ⟨rfl, rfl, hrest, -⟩ := h.holder_eq htop rfl
  refine mutexSound_local h _ _ h.free ?_ (fun _ _ => Iff.rfl) ?_ (by simp)
  · simp [Task.tokens, callTokens, hrest]
  · simp [lockedBy, Frame.owns]

/-- `mutex->locked_task = NULL`. -/
theorem unlockClear_sound (h : MutexSound m x L c holder) (htop : x.top = ⟨holds, some .unlockClear⟩ :: rest) :
    MutexSound m { x.setTop (⟨holds, some .unlockTest⟩ :: rest) with
      sched := x.sched.setMutex m ⟨(x.sched.mutexes m).lock, none⟩ } L c holder := by
  obtain ⟨rfl, rfl, hrest, howns⟩ := h.holder_eq htop rfl
  refine mutexSound_local h _ _ h.free ?_ (fun _ _ => Iff.rfl) ?_ (by simp)
  · simp [Task.tokens, callTokens, hrest]
  · rw [lockedBy, Function.update_self, List.any_cons, howns]
    rfl

/-- `arch_atomic_swap(mutex->lock, 0)`. -/
theorem unlockFree_sound (h : MutexSound m x L c holder) (htop : x.top = ⟨holds, some .unlockFree⟩ :: rest) :
    MutexSound m { x.setTop (⟨holds, none⟩ :: rest) with
      sched := x.sched.setMutex m ⟨0#32, (x.sched.mutexes m).lockedTask⟩ } L c none := by
  have hlocked := h.lockedTask_eq htop rfl
  obtain ⟨rfl, rfl, hrest, -⟩ := h.holder_eq htop rfl
  refine mutexSound_local h _ _ (by simp) ?_ (fun k hk => ?_) ?_ (by simp)
  · simp [Task.tokens, callTokens, hrest]
  · simpa using hk.symm
  · rw [hlocked]; rfl

/-- The locked section is a `task_block` when the scheduler is unlocked. -/
theorem mutexBlock_eq {s : Sched} (hcount : s.lockCount = 0) :
    mutexBlock s m = taskBlock s (.mutex m) .blockedLock := by
  have hlocked : ∀ s₁, schedulerLock s = .ok s₁ → s₁.lockCount = 1 := by
    intro s₁ hlock
    rw [schedulerLock, if_pos hcount] at hlock
    simp only [bind_eq_ok, pure_eq_ok] at hlock
    obtain ⟨-, -, rfl⟩ := hlock
    simp [hcount]
  unfold mutexBlock taskBlock
  cases hlock : schedulerLock s with
  | error e => rfl
  | ok s₁ => rw [ok_bind, ok_bind, assert_bind (hlocked s₁ hlock)]

theorem waiting_snoc {t : TaskId} {L' : QueuePtr → List TaskId} (hL : L' (.mutex m) = L (.mutex m) ++ [t])
    (k : Option TaskId) (hk : k ≠ some t) : waiting m L' k = waiting m L k := by
  cases k with
  | none => rfl
  | some u =>
    have hu : u ≠ t := fun h => hk (congrArg some h)
    simp [waiting, hL, hu]

theorem waiting_tail {t : TaskId} {l : List TaskId} {L' : QueuePtr → List TaskId} (hL : L (.mutex m) = t :: l)
    (hL' : L' (.mutex m) = l) (k : Option TaskId) (hk : k ≠ some t) : waiting m L' k = waiting m L k := by
  cases k with
  | none => rfl
  | some u =>
    have hu : u ≠ t := fun h => hk (congrArg some h)
    simp [waiting, hL, hL', hu]

/-- The locked section of `mutex_lock` blocks the running task. -/
theorem mutexBlock_stepped (h : MutexSound m x L c holder) (htop : x.top = ⟨holds, some .lockBlock⟩ :: rest)
    {s' : Sched} (hstep : mutexBlock x.sched m = .ok s') : ∃ t L' c', x.sched.current = some t ∧
      Stepped x.sched L c (.taskBlock (.mutex m) .blockedLock) s' L' c' := by
  cases hcur : x.sched.current with
  | none =>
    -- `__task_block` asserts that there is a task to block
    exfalso
    simp only [mutexBlock, bind_eq_ok] at hstep
    obtain ⟨s₁, hlock, t, ht, -⟩ := hstep
    obtain ⟨e, hlock', -⟩ := schedulerLock_spec h.sound.toSteady
    rw [hlock', Except.ok.injEq] at hlock
    subst hlock
    simp [currentTask, hcur] at ht
  | some t =>
    have hcount := h.unlocked t holds rest hcur (by rw [← hcur]; exact htop)
    rw [mutexBlock_eq hcount] at hstep
    obtain ⟨s'', L', c', hblock, hs⟩ := taskBlock_stepped (q := .mutex m) h.sound (by simp [hcur]) hcount
      (by simp) (show Parked .blockedLock from .inr (.inr rfl))
    obtain rfl : s'' = s' := by
      rw [hblock, Except.ok.injEq] at hstep
      exact hstep
    exact ⟨t, L', c', rfl, hs⟩

/-- **The wait.** A call that finds the mutex locked joins the queue and leaves the processor. -/
theorem lockBlock_sound (h : MutexSound m x L c holder) (htop : x.top = ⟨holds, some .lockBlock⟩ :: rest) {s' : Sched}
    (hstep : mutexBlock x.sched m = .ok s') : ∃ L' c',
      MutexSound m { x.setTop (⟨holds, some .lockCheck⟩ :: rest) with sched := s' } L' c' holder := by
  obtain ⟨t, L', c', hcur, hs⟩ := mutexBlock_stepped h htop hstep
  have hL : L' (.mutex m) = L (.mutex m) ++ [t] := by
    rw [hs.lists _ (by simp), opLists, Function.update_self, hcur]
    rfl
  have ht := h.tokens_top
  have hwait := h.waiting_eq
  rw [htop, hcur] at ht
  rw [hcur] at hwait
  refine ⟨L', c', hs.sound, ?_, fun k => ?_, ?_, fun u hu => ?_, fun u b l hu hl => ?_⟩
  · rw [hs.mutexes]; exact h.free
  · rcases eq_or_ne k (some t) with rfl | hk
    · simp only [MutexSys.setTop, hcur, Function.update_self, Task.tokens, callTokens] at ht ⊢
      simp only [waiting, hL, List.mem_append, List.mem_singleton, or_true, if_true]
      omega
    · simpa [MutexSys.setTop, hcur, hk, waiting_snoc hL k hk] using h.tokens k
  · rw [hs.mutexes, h.owner]
    refine (lockedBy_update ?_).symm
    rw [htop]; rfl
  · rcases eq_or_ne u t with rfl | hut
    · exact ⟨holds, rest, by simp [MutexSys.setTop, hcur]⟩
    · have hu' : u ∈ L (.mutex m) := by simpa [hL, hut] using hu
      simpa [MutexSys.setTop, hcur, hut] using h.queue u hu'
  · rcases hs.current_eq h.sound hu with ⟨hu', -⟩ | hcount'
    · obtain rfl : t = u := by simpa [hcur] using hu'
      simp [MutexSys.setTop, hcur] at hl
    · exact hcount'

/-- **The hand-over.** `mutex_unlock` passes the token to the first task of the queue, if there is one. -/
theorem unlockNext_sound (h : MutexSound m x L c holder) (htop : x.top = ⟨holds, some .unlockNext⟩ :: rest) {s' : Sched}
    (hstep : taskUnblockNext x.sched (.mutex m) = .ok s') : ∃ L' c' holder',
      MutexSound m { x.setTop (⟨holds, none⟩ :: rest) with sched := s' } L' c' holder' := by
  have hlocked := h.lockedTask_eq htop rfl
  have hwaiting := h.waiting_eq
  obtain ⟨rfl, rfl, hrest, -⟩ := h.holder_eq htop rfl
  obtain ⟨s'', L', c', hnext, hs⟩ := taskUnblockNext_stepped (q := .mutex m) h.sound (by simp)
  obtain rfl : s'' = s' := by
    rw [hnext, Except.ok.injEq] at hstep
    exact hstep
  have hL' : L' (.mutex m) = (L (.mutex m)).tail := by
    rw [hs.lists _ (by simp), opLists, Function.update_self]
  have hunlocked : ∀ t b l, s''.current = some t →
      (x.setTop (⟨false, none⟩ :: rest)).stack (some t) = ⟨b, some .lockBlock⟩ :: l → s''.lockCount = 0 := by
    intro t b l ht hl
    rcases hs.current_eq h.sound ht with ⟨ht', -⟩ | hcount'
    · simp [MutexSys.setTop, ht'] at hl
    · exact hcount'
  cases hL : L (.mutex m) with
  | nil =>
    rw [hL, List.tail_nil] at hL'
    refine ⟨L', c', none, hs.sound, fun _ => rfl, fun k => ?_, ?_, by simp [hL'], hunlocked⟩
    · have hw : waiting m L' k = 0 := by cases k <;> simp [waiting, hL']
      have hw' : waiting m L k = 0 := by cases k <;> simp [waiting, hL]
      rcases eq_or_ne k x.sched.current with rfl | hk
      · simp [MutexSys.setTop, Task.tokens, callTokens, hrest, hw]
      · simpa [MutexSys.setTop, hk, hk.symm, hw, hw'] using h.tokens k
    · rw [hs.mutexes, hlocked]; rfl
  | cons a queue =>
    rw [hL, List.tail_cons] at hL'
    have ha : a ∈ L (.mutex m) := by simp [hL]
    have hne : some a ≠ x.sched.current := by
      intro heq
      rw [← heq, waiting, if_pos ha] at hwaiting
      omega
    have hnodup := h.sound.repr.nodup (.mutex m)
    rw [hL, List.nodup_cons] at hnodup
    obtain ⟨b, below, hstack⟩ := h.queue a ha
    have htok := h.tokens (some a)
    rw [hstack, if_neg (by simpa using hne.symm), waiting, if_pos ha] at htok
    obtain ⟨-, rfl, hbelow⟩ := rest_of_token htok (by omega) rfl
    refine ⟨L', c', some (some a), hs.sound, fun h0 => ?_, fun k => ?_, ?_, fun t ht => ?_, hunlocked⟩
    · rw [hs.mutexes] at h0
      simpa using h.free h0
    · rcases eq_or_ne k (some a) with rfl | hka
      · simp [MutexSys.setTop, hne, hstack, Task.tokens, callTokens, hbelow, waiting, hL', hnodup.1]
      · rw [waiting_tail hL hL' k hka]
        rcases eq_or_ne k x.sched.current with rfl | hk
        · simp [MutexSys.setTop, Task.tokens, callTokens, hrest, hne, hwaiting]
        · simpa [MutexSys.setTop, hk, hk.symm, hka.symm] using h.tokens k
    · rw [hs.mutexes, hlocked, lockedBy]
      simp [MutexSys.setTop, hne, hstack, any_owns_eq_false hbelow, Frame.owns]
    · have ht' : t ∈ L (.mutex m) := by rw [hL, ← hL']; exact List.mem_cons_of_mem a ht
      have htne : some t ≠ x.sched.current := by
        intro heq
        rw [← heq, waiting, if_pos ht'] at hwaiting
        omega
      simpa [MutexSys.setTop, htne] using h.queue t ht'

/-- One statement of a call. -/
theorem mutexNext_sound {pc : MutexPc} {f : Frame} {s' : Sched} (h : MutexSound m x L c holder)
    (htop : x.top = ⟨holds, some pc⟩ :: rest) (haway : SwitchesAway m x .next)
    (hstep : mutexNext m x.sched holds pc = .ok (f, s')) :
    ∃ L' c' holder', MutexSound m { x.setTop (f :: rest) with sched := s' } L' c' holder' := by
  cases pc with
  | lockSwap =>
    simp only [mutexNext, pure_eq_ok, Prod.mk.injEq] at hstep
    obtain ⟨rfl, rfl⟩ := hstep
    by_cases hlock : (x.sched.mutexes m).lock = 0#32
    · rw [if_neg (not_not.2 hlock)]
      exact ⟨L, c, _, lockSwap_free h htop hlock⟩
    · rw [if_pos hlock]
      exact ⟨L, c, holder, lockSwap_contended h htop (haway rfl holds rest htop hlock)⟩
  | lockBlock =>
    simp only [mutexNext, bind_eq_ok, pure_eq_ok, Prod.mk.injEq] at hstep
    obtain ⟨s₁, hblock, rfl, rfl⟩ := hstep
    obtain ⟨L', c', hs⟩ := lockBlock_sound h htop hblock
    exact ⟨L', c', holder, hs⟩
  | lockCheck =>
    simp only [mutexNext, bind_eq_ok, pure_eq_ok, Prod.mk.injEq] at hstep
    obtain ⟨-, -, rfl, rfl⟩ := hstep
    exact ⟨L, c, holder, mutexSound_frames h (by rw [htop]; rfl) (by rw [htop]; rfl) (by simp)⟩
  | lockTake =>
    simp only [mutexNext, pure_eq_ok, Prod.mk.injEq] at hstep
    obtain ⟨rfl, rfl⟩ := hstep
    exact ⟨L, c, holder, lockTake_sound h htop⟩
  | unlockSwap =>
    simp only [mutexNext, bind_eq_ok, pure_eq_ok, Prod.mk.injEq] at hstep
    obtain ⟨-, -, rfl, rfl⟩ := hstep
    refine ⟨L, c, holder, mutexSound_local h _ _ (by simp) ?_ (fun _ _ => Iff.rfl) ?_ (by simp)⟩
    · rw [← h.tokens_top, htop]; rfl
    · rw [lockedBy_update (by rw [htop]; simp [Frame.owns])]; exact h.owner
  | unlockCheck =>
    simp only [mutexNext, bind_eq_ok, pure_eq_ok, Prod.mk.injEq] at hstep
    obtain ⟨-, -, rfl, rfl⟩ := hstep
    exact ⟨L, c, holder, mutexSound_frames h (by rw [htop]; rfl) (by rw [htop]; simp [Frame.owns]) (by simp)⟩
  | unlockClear =>
    simp only [mutexNext, pure_eq_ok, Prod.mk.injEq] at hstep
    obtain ⟨rfl, rfl⟩ := hstep
    exact ⟨L, c, holder, unlockClear_sound h htop⟩
  | unlockTest =>
    simp only [mutexNext, pure_eq_ok, Prod.mk.injEq] at hstep
    obtain ⟨rfl, rfl⟩ := hstep
    refine ⟨L, c, holder, mutexSound_frames h ?_ ?_ ?_⟩
    · rw [htop]; split <;> rfl
    · rw [htop]; split <;> rfl
    · split <;> simp
  | unlockNext =>
    simp only [mutexNext, bind_eq_ok, pure_eq_ok, Prod.mk.injEq] at hstep
    obtain ⟨s₁, hnext, rfl, rfl⟩ := hstep
    exact unlockNext_sound h htop hnext
  | unlockFree =>
    simp only [mutexNext, pure_eq_ok, Prod.mk.injEq] at hstep
    obtain ⟨rfl, rfl⟩ := hstep
    exact ⟨L, c, none, unlockFree_sound h htop⟩

/-- An operation of the scheduler that has nothing to do with the mutex. -/
theorem sched_sound {op : SchedOp} {s' : Sched} (h : MutexSound m x L c holder) (hl : MutexLegal m x (.sched op))
    (hstep : schedStep x.sched op = .ok s') :
    ∃ L' c', MutexSound m { x with sched := s' } L' c' holder := by
  obtain ⟨hlegal, hblock, hnext, hcode⟩ := hl
  obtain ⟨s'', L', c', hrun, hs⟩ := schedStep_spec h.sound hlegal
  obtain rfl : s'' = s' := by
    rw [hrun, Except.ok.injEq] at hstep
    exact hstep
  have hL : L' (.mutex m) = L (.mutex m) := by
    rw [hs.lists _ (by simp)]
    exact opLists_untouched (by simp) hblock hnext (by simp)
  refine ⟨L', c', hs.sound, ?_, fun k => ?_, ?_, ?_, fun t b l ht hl => ?_⟩
  · rw [hs.mutexes]; exact h.free
  · rw [h.tokens k]
    cases k <;> simp [waiting, hL]
  · rw [hs.mutexes]; exact h.owner
  · rw [hL]; exact h.queue
  · rcases hs.current_eq h.sound ht with ⟨ht', hop⟩ | hcount
    · -- the same task runs on, and it is in its own code
      obtain ⟨holds, rest, htop⟩ := hcode.resolve_left hop
      rw [MutexSys.top, ht'] at htop
      rw [show x.stack (some t) = ⟨b, some .lockBlock⟩ :: l from hl] at htop
      simp at htop
    · exact hcount

/-- **One step** keeps the invariant. -/
theorem mutexStep_sound {op : MutexOp} (h : MutexSound m x L c holder) (hl : MutexLegal m x op)
    (haway : SwitchesAway m x op) (hstep : mutexStep m x op = .ok x') :
    ∃ L' c' holder', MutexSound m x' L' c' holder' := by
  cases op with
  | sched op =>
    simp only [mutexStep, bind_eq_ok, pure_eq_ok] at hstep
    obtain ⟨s', hs, rfl⟩ := hstep
    obtain ⟨L', c', hx'⟩ := sched_sound h hl hs
    exact ⟨L', c', holder, hx'⟩
  | mutexLock =>
    obtain ⟨holds, rest, htop⟩ := hl
    simp only [mutexStep, htop, pure_eq_ok] at hstep
    subst hstep
    exact ⟨L, c, holder, mutexSound_frames h (by rw [htop]; rfl) (by rw [htop]; simp [Frame.owns]) (by simp)⟩
  | mutexUnlock =>
    obtain ⟨rest, htop⟩ := hl
    simp only [mutexStep, htop, pure_eq_ok] at hstep
    subst hstep
    exact ⟨L, c, holder, mutexSound_frames h (by rw [htop]; rfl) (by rw [htop]; simp [Frame.owns]) (by simp)⟩
  | next =>
    obtain ⟨holds, pc, rest, htop⟩ := hl
    simp only [mutexStep, htop, bind_eq_ok, pure_eq_ok, Prod.exists] at hstep
    obtain ⟨f, s', hnext, rfl⟩ := hstep
    exact mutexNext_sound h htop haway hnext
  | irq =>
    simp only [mutexStep, pure_eq_ok] at hstep
    subst hstep
    exact ⟨L, c, holder, mutexSound_frames h (by simp [Task.tokens, callTokens]) (by simp [Frame.owns]) (by simp)⟩
  | iret =>
    obtain ⟨hcount, f, rest, htop⟩ := hl
    simp only [mutexStep, pure_eq_ok] at hstep
    subst hstep
    refine ⟨L, c, holder, mutexSound_frames h ?_ ?_ fun t b l ht _ => ?_⟩
    · rw [htop]; simp [Task.tokens, callTokens]
    · rw [htop]; simp [Frame.owns]
    · obtain ⟨u, rfl, -⟩ := h.sound.eq_run (by simp [ht])
      rw [hcount, h.sound.lockBase_eq]
      rfl

end Steps

/-! ## Mutual exclusion -/

section Exclusion

variable {m : Nat} {x : MutexSys} {L : QueuePtr → List TaskId} {c : Cpu} {holder : Option (Option TaskId)}

theorem mutexBoot_sound (m : Nat) (counts : Nat → Word) :
    MutexSound m (mutexBoot counts) (fun _ => []) .boot none where
  sound := boot_sound counts
  free _ := rfl
  tokens k := by cases k <;> rfl
  owner := rfl
  queue t ht := by simp at ht
  unlocked t holds rest ht := by simp [mutexBoot, boot] at ht

/-- A context that owns the mutex has the token. -/
theorem MutexSound.holder_of_owns (h : MutexSound m x L c holder) {k : Option TaskId}
    (hk : (x.stack k).any Frame.owns = true) : holder = some k := by
  by_contra hne
  have htok := h.tokens k
  rw [if_neg hne, Nat.zero_add] at htok
  have hzero : Task.tokens (x.stack k) ≠ 0 := fun h0 => by simp [any_owns_eq_false h0] at hk
  cases k with
  | none => exact hzero htok
  | some t =>
    -- the only token of a waiting task is the one of its call
    have hmem : t ∈ L (.mutex m) := by
      by_contra hmem
      rw [waiting, if_neg hmem] at htok
      exact hzero htok
    obtain ⟨b, rest, hstack⟩ := h.queue t hmem
    rw [waiting, if_pos hmem, hstack] at htok
    obtain ⟨-, rfl, hrest⟩ := rest_of_token htok (Nat.le_refl 1) rfl
    rw [hstack, List.any_cons, any_owns_eq_false hrest] at hk
    simp [Frame.owns] at hk

/-- **Mutual exclusion.** If every `mutex_lock` that finds the mutex locked is called with the scheduler unlocked, then
in every state of every run at most one context owns the mutex, nobody owns it when `mutex_lock` is about to return,
and the assertion `locked_task == NULL` holds when it is reached. -/
theorem mutex_runs_exclude (m : Nat) (counts : Nat → Word) (ops : List MutexOp)
    (h : StepsMeet (mutexStep m) (fun x op => MutexLegal m x op ∧ SwitchesAway m x op) (mutexBoot counts) ops)
    (hrun : runSteps (mutexStep m) (mutexBoot counts) ops = .ok x) :
    (∀ k k', (x.stack k).any Frame.owns = true → (x.stack k').any Frame.owns = true → k = k') ∧
    (∀ holds rest, x.top = ⟨holds, some .lockTake⟩ :: rest → ∀ k, (x.stack k).any Frame.owns = false) ∧
    (∀ holds rest, x.top = ⟨holds, some .lockCheck⟩ :: rest → (x.sched.mutexes m).lockedTask = none) := by
  obtain ⟨L, c, holder, hx⟩ := runSteps_keeps (I := fun x => ∃ L c holder, MutexSound m x L c holder)
    (fun x op x' hI (hok : MutexLegal m x op ∧ SwitchesAway m x op) hstep => by
      obtain ⟨L, c, holder, hx⟩ := hI
      exact mutexStep_sound hx hok.1 hok.2 hstep)
    ops ⟨_, _, _, mutexBoot_sound m counts⟩ h hrun
  refine ⟨fun k k' hk hk' => ?_, fun holds rest htop k => ?_, fun holds rest htop => ?_⟩
  · have := (hx.holder_of_owns hk).symm.trans (hx.holder_of_owns hk')
    simpa using this
  · obtain ⟨hholder, rfl, -, hrest⟩ := hx.holder_eq htop rfl
    by_contra hk
    have hk' : holder = some k := hx.holder_of_owns (by simpa using hk)
    obtain rfl : x.sched.current = k := by simpa using hholder.symm.trans hk'
    rw [← MutexSys.top, htop, List.any_cons, hrest] at hk
    simp [Frame.owns] at hk
  · obtain ⟨-, rfl, -, -⟩ := hx.holder_eq htop rfl
    rw [hx.lockedTask_eq htop rfl]
    rfl

end Exclusion

/-- Task 2 finds the mutex locked by task 1 and blocks; task 1 hands it over, and task 2 takes it. -/
def contendedRun : List MutexOp :=
  [.sched (.taskAdd 1), .sched (.taskAdd 2), .sched .taskingEnable, .mutexLock, .next, .next, .next, .sched .yield,
    .mutexLock, .next, .next, .mutexUnlock, .next, .next, .next, .next, .next, .next]

theorem contendedRun_excludes : ∃ x, runSteps (mutexStep 0) (mutexBoot fun _ => 0#32) contendedRun = .ok x ∧
    (∀ k k', (x.stack k).any Frame.owns = true → (x.stack k').any Frame.owns = true → k = k') ∧
    (∀ holds rest, x.top = ⟨holds, some .lockTake⟩ :: rest → ∀ k, (x.stack k).any Frame.owns = false) ∧
    (∀ holds rest, x.top = ⟨holds, some .lockCheck⟩ :: rest → (x.sched.mutexes 0).lockedTask = none) := by
  refine ⟨_, rfl, mutex_runs_exclude 0 (fun _ => 0#32) contendedRun ?_ rfl⟩
  refine stepsMeet_cons ⟨⟨by simp [Legal, mutexBoot, boot], by simp, by simp, .inr ⟨_, _, rfl⟩⟩,
    fun _ _ _ _ _ => rfl⟩ rfl ?_
  refine stepsMeet_cons ⟨⟨show 2 ∉ [1] by decide, by simp, by simp, .inr ⟨_, _, rfl⟩⟩, fun _ _ _ _ _ => rfl⟩ rfl ?_
  refine stepsMeet_cons ⟨⟨⟨rfl, rfl, by decide⟩, by simp, by simp, .inr ⟨_, _, rfl⟩⟩, fun _ _ _ _ _ => rfl⟩ rfl ?_
  refine stepsMeet_cons ⟨⟨_, _, rfl⟩, fun _ _ _ _ _ => rfl⟩ rfl ?_
  refine stepsMeet_cons ⟨⟨_, _, _, rfl⟩, fun _ _ _ _ _ => rfl⟩ rfl ?_
  refine stepsMeet_cons ⟨⟨_, _, _, rfl⟩, fun _ _ _ _ _ => rfl⟩ rfl ?_
  refine stepsMeet_cons ⟨⟨_, _, _, rfl⟩, fun _ _ _ _ _ => rfl⟩ rfl ?_
  refine stepsMeet_cons ⟨⟨rfl, by simp, by simp, .inr ⟨_, _, rfl⟩⟩, fun _ _ _ _ _ => rfl⟩ rfl ?_
  refine stepsMeet_cons ⟨⟨_, _, rfl⟩, fun _ _ _ _ _ => rfl⟩ rfl ?_
  refine stepsMeet_cons ⟨⟨_, _, _, rfl⟩, fun _ _ _ _ _ => rfl⟩ rfl ?_
  refine stepsMeet_cons ⟨⟨_, _, _, rfl⟩, fun _ _ _ _ _ => rfl⟩ rfl ?_
  refine stepsMeet_cons ⟨⟨_, rfl⟩, fun _ _ _ _ _ => rfl⟩ rfl ?_
  refine stepsMeet_cons ⟨⟨_, _, _, rfl⟩, fun _ _ _ _ _ => rfl⟩ rfl ?_
  refine stepsMeet_cons ⟨⟨_, _, _, rfl⟩, fun _ _ _ _ _ => rfl⟩ rfl ?_
  refine stepsMeet_cons ⟨⟨_, _, _, rfl⟩, fun _ _ _ _ _ => rfl⟩ rfl ?_
  refine stepsMeet_cons ⟨⟨_, _, _, rfl⟩, fun _ _ _ _ _ => rfl⟩ rfl ?_
  refine stepsMeet_cons ⟨⟨_, _, _, rfl⟩, fun _ _ _ _ _ => rfl⟩ rfl ?_
  exact stepsMeet_cons ⟨⟨_, _, _, rfl⟩, fun _ _ _ _ _ => rfl⟩ rfl trivial

example : ∃ x, runSteps (mutexStep 0) (mutexBoot fun _ => 0#32) contendedRun = .ok x ∧ x.sched.current = some 2 ∧
    x.top = [⟨false, some .lockTake⟩] :=
  ⟨_, rfl, rfl, rfl⟩

/-- Task 2 calls `mutex_lock` under `scheduler_lock`, as `__ktask_exit` does, while task 1 has the mutex. -/
def nestedRun : List MutexOp :=
  [.sched (.taskAdd 1), .sched (.taskAdd 2), .sched .taskingEnable, .mutexLock, .next, .next, .next, .sched .yield,
    .sched .schedulerLock, .mutexLock, .next, .next]

/-- The inner `scheduler_unlock` of `mutex_lock` does not switch: the call goes on while task 1 owns the mutex, and its
assertion fails. -/
theorem mutex_lock_under_scheduler_lock :
    StepsMeet (mutexStep 0) (MutexLegal 0) (mutexBoot fun _ => 0#32) nestedRun ∧
    ∃ x, runSteps (mutexStep 0) (mutexBoot fun _ => 0#32) nestedRun = .ok x ∧ x.sched.current = some 2 ∧
      x.top = [⟨false, some .lockCheck⟩] ∧ (x.sched.mutexes 0).lockedTask = some 1 ∧
      mutexStep 0 x .next = .error .assertion := by
  refine ⟨?_, _, rfl, rfl, rfl, rfl, rfl⟩
  refine stepsMeet_cons ⟨by simp [Legal, mutexBoot, boot], by simp, by simp, .inr ⟨_, _, rfl⟩⟩ rfl ?_
  refine stepsMeet_cons ⟨show 2 ∉ [1] by decide, by simp, by simp, .inr ⟨_, _, rfl⟩⟩ rfl ?_
  refine stepsMeet_cons ⟨⟨rfl, rfl, by decide⟩, by simp, by simp, .inr ⟨_, _, rfl⟩⟩ rfl ?_
  refine stepsMeet_cons ⟨_, _, rfl⟩ rfl ?_
  refine stepsMeet_cons ⟨_, _, _, rfl⟩ rfl ?_
  refine stepsMeet_cons ⟨_, _, _, rfl⟩ rfl ?_
  refine stepsMeet_cons ⟨_, _, _, rfl⟩ rfl ?_
  refine stepsMeet_cons ⟨rfl, by simp, by simp, .inr ⟨_, _, rfl⟩⟩ rfl ?_
  refine stepsMeet_cons ⟨trivial, by simp, by simp, .inr ⟨_, _, rfl⟩⟩ rfl ?_
  refine stepsMeet_cons ⟨_, _, rfl⟩ rfl ?_
  refine stepsMeet_cons ⟨_, _, _, rfl⟩ rfl ?_
  exact stepsMeet_cons ⟨_, _, _, rfl⟩ rfl trivial

end Myunix.Task
