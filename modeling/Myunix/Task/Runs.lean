import Myunix.Task.Placement

/-!
# Runs of the scheduler

Every operation of the scheduler is a locked section or a few nested ones. Outside them the state is `Sound`: steady,
with every spin lock free. `schedStep_spec` says what one legal operation does: it returns, the state is sound again,
and the queues other than the ready queue are the ones `opLists` gives (`Stepped`). `sched_runs_conserve_tasks` carries
this to every run from boot.
-/

namespace Myunix.Task

open Lib

/-! ## Operations and their effects -/

/-- The `scheduler_lock_count` with no section open: the idle loop holds one. -/
def lockBase (s : Sched) : Nat := if s.idle = none then 0 else 1

/-- When an operation may be called: blocking calls by a running task with the scheduler unlocked, `task_exit` under
one lock, timer interrupts with no section open. -/
def Legal (s : Sched) : SchedOp → Prop
  | .flags _ => s.lockCount = lockBase s
  | .schedulerLock => True
  | .schedulerUnlock => lockBase s < s.lockCount
  | .taskAdd task => task ∉ s.tasks
  | .taskingEnable => s.schedulerReady = false ∧ s.lockCount = 0 ∧ (s.links.queues .readyQueue).first ≠ none
  | .yield => s.schedulerReady = true
  | .taskBlock q reason => (s.current ≠ none ∧ s.lockCount = 0) ∧ q ≠ .readyQueue ∧ Parked reason
  | .taskUnblockNext q => q ≠ .readyQueue
  | .taskSleepUntil _ _ => s.current ≠ none ∧ s.lockCount = 0
  | .taskSleepMiliseconds _ => s.current ≠ none ∧ s.lockCount = 0
  | .semaphoreAcquire _ => s.current ≠ none ∧ s.lockCount = 0
  | .semaphoreRelease _ => True
  | .taskExit => s.current ≠ none ∧ s.lockCount = 1
  | .tick => s.lockCount = lockBase s
  | .idleWake => s.idle ≠ none ∧ s.lockCount = 1

/-- A sleeping task that the next timer interrupt does not wake. -/
def asleep (s : Sched) (t : TaskId) : Bool := ! decide (s.waitTarget t ≤ s.timerTicks + 1)

/-- The queues after an operation, the ready queue apart. -/
def opLists (s : Sched) (L : QueuePtr → List TaskId) : SchedOp → QueuePtr → List TaskId
  | .taskBlock q _ => Function.update L q (L q ++ s.current.toList)
  | .taskUnblockNext q => Function.update L q (L q).tail
  | .taskSleepUntil seen target =>
    if target ≤ seen then L else Function.update L .waitQueue (L .waitQueue ++ s.current.toList)
  | .taskSleepMiliseconds _ => Function.update L .waitQueue (L .waitQueue ++ s.current.toList)
  | .semaphoreAcquire i =>
    if 0#32 < (s.semaphores i).count then L
    else Function.update L (.semaphore i) (L (.semaphore i) ++ s.current.toList)
  | .semaphoreRelease i => Function.update L (.semaphore i) (L (.semaphore i)).tail
  | .tick =>
    if s.schedulerReady = false then L
    else Function.update L .waitQueue ((L .waitQueue).filter (asleep s))
  | .flags _ | .schedulerLock | .schedulerUnlock | .taskAdd _ | .taskingEnable | .yield | .taskExit | .idleWake => L

/-- The semaphores after an operation. -/
def opSemaphores (s : Sched) (L : QueuePtr → List TaskId) : SchedOp → Nat → Semaphore
  | .semaphoreAcquire i =>
    if 0#32 < (s.semaphores i).count then Function.update s.semaphores i ⟨(s.semaphores i).count - 1#32, 0#32⟩
    else s.semaphores
  | .semaphoreRelease i =>
    if L (.semaphore i) = [] then Function.update s.semaphores i ⟨(s.semaphores i).count + 1#32, 0#32⟩
    else s.semaphores
  | _ => s.semaphores

/-- The tasks added after an operation. -/
def opTasks (s : Sched) : SchedOp → List TaskId
  | .taskAdd task => task :: s.tasks
  | _ => s.tasks

/-- **The invariant between operations.** -/
structure Sound (s : Sched) (L : QueuePtr → List TaskId) (c : Cpu) : Prop extends Steady s L c where
  spin : ∀ i, (s.semaphores i).lock = 0#32

/-- What an operation does. -/
structure Stepped (s : Sched) (L : QueuePtr → List TaskId) (c : Cpu) (op : SchedOp) (s' : Sched)
    (L' : QueuePtr → List TaskId) (c' : Cpu) : Prop where
  sound : Sound s' L' c'
  lists : ∀ q, q ≠ .readyQueue → L' q = opLists s L op q
  semaphores : s'.semaphores = opSemaphores s L op
  mutexes : s'.mutexes = s.mutexes
  tasks : s'.tasks = opTasks s op
  terminated : ∀ t ∈ s.tasks,
    s'.state t = .terminated ↔ s.state t = .terminated ∨ op = .taskExit ∧ s.current = some t
  cpu : c' = c ∧ op ≠ .tick ∨ s'.lockCount = c'.base

/-- The queue of a process, a semaphore or a mutex changes only by the calls that name it. -/
theorem opLists_untouched {s : Sched} {L : QueuePtr → List TaskId} {op : SchedOp} {q : QueuePtr}
    (hwait : q ≠ .waitQueue) (hblock : ∀ reason, op ≠ .taskBlock q reason) (hnext : op ≠ .taskUnblockNext q)
    (hsem : ∀ i, q = .semaphore i → op ≠ .semaphoreAcquire i ∧ op ≠ .semaphoreRelease i) :
    opLists s L op q = L q := by
  cases op with
  | taskBlock p reason =>
    refine Function.update_of_ne ?_ _ _
    rintro rfl
    exact hblock reason rfl
  | taskUnblockNext p =>
    refine Function.update_of_ne ?_ _ _
    rintro rfl
    exact hnext rfl
  | taskSleepUntil seen target =>
    rw [opLists]
    split
    · rfl
    · exact Function.update_of_ne hwait ..
  | taskSleepMiliseconds time => exact Function.update_of_ne hwait ..
  | semaphoreAcquire i =>
    rw [opLists]
    split
    · rfl
    · exact Function.update_of_ne (fun hq => (hsem i hq).1 rfl) ..
  | semaphoreRelease i => exact Function.update_of_ne (fun hq => (hsem i hq).2 rfl) ..
  | tick =>
    rw [opLists]
    split
    · rfl
    · exact Function.update_of_ne hwait ..
  | flags b => rfl
  | schedulerLock => rfl
  | schedulerUnlock => rfl
  | taskAdd t => rfl
  | taskingEnable => rfl
  | yield => rfl
  | taskExit => rfl
  | idleWake => rfl

/-- A semaphore changes only by the calls that name it. -/
theorem opSemaphores_untouched {s : Sched} {L : QueuePtr → List TaskId} {op : SchedOp} {i : Nat}
    (hacq : op ≠ .semaphoreAcquire i) (hrel : op ≠ .semaphoreRelease i) :
    opSemaphores s L op i = s.semaphores i := by
  cases op with
  | semaphoreAcquire j =>
    have hj : i ≠ j := by
      rintro rfl
      exact hacq rfl
    rw [opSemaphores]
    split
    · exact Function.update_of_ne hj ..
    · rfl
  | semaphoreRelease j =>
    have hj : i ≠ j := by
      rintro rfl
      exact hrel rfl
    rw [opSemaphores]
    split
    · exact Function.update_of_ne hj ..
    · rfl
  | _ => rfl

/-! ## Inside a section -/

section Sections

variable {s : Sched} {L M : QueuePtr → List TaskId} {c : Cpu} {t : TaskId} {q : QueuePtr}

theorem Kept.refl (s : Sched) (L : QueuePtr → List TaskId) : Kept s L s L :=
  ⟨fun _ _ => rfl, rfl, rfl, rfl, rfl, fun _ => Iff.rfl⟩

theorem Kept.trans {s₁ s₂ : Sched} {L₁ L₂ : QueuePtr → List TaskId} (h : Kept s M s₁ L₁) (h' : Kept s₁ L₁ s₂ L₂) :
    Kept s M s₂ L₂ :=
  ⟨fun q hq => (h'.lists q hq).trans (h.lists q hq), h'.semaphores.trans h.semaphores, h'.mutexes.trans h.mutexes,
    h'.tasks.trans h.tasks, h'.schedulerReady.trans h.schedulerReady,
    fun t => (h'.terminated t).trans (h.terminated t)⟩

/-- A task runs or the processor idles once the scheduler is ready. -/
theorem Steady.ne_boot (h : Steady s L c) (hready : s.schedulerReady = true) : c ≠ .boot := by
  rintro rfl
  simp [h.cpu.1] at hready

theorem Steady.schedulerReady (h : Steady s L c) (hc : c ≠ .boot) : s.schedulerReady = true := by
  cases c with
  | boot => exact absurd rfl hc
  | run t => exact h.cpu.1
  | idle t => exact h.cpu.1

theorem Steady.lockBase_eq (h : Steady s L c) : lockBase s = c.base := by
  cases c with
  | boot => simp [lockBase, h.cpu.2.2, Cpu.base]
  | run t => simp [lockBase, h.cpu.2.2, Cpu.base]
  | idle t => simp [lockBase, h.cpu.2.2, Cpu.base]

/-- The processor of a state with a current task. -/
theorem Steady.eq_run (h : Steady s L c) (hcur : s.current ≠ none) : ∃ t, c = .run t ∧ s.current = some t := by
  cases c with
  | boot => exact absurd h.cpu.2.1 hcur
  | run t => exact ⟨t, rfl, h.cpu.2.1⟩
  | idle t => exact absurd h.cpu.2.1 hcur

theorem Steady.eq_idle (h : Steady s L c) (hidle : s.idle ≠ none) : ∃ t, c = .idle t := by
  cases c with
  | boot => exact absurd h.cpu.2.2 hidle
  | run t => exact absurd h.cpu.2.2 hidle
  | idle t => exact ⟨t, rfl⟩

theorem currentTask_run (h : CpuIs s (.run t)) : currentTask s = .ok t := by simp [currentTask, h.2.1]

theorem schedule_ok (hints : s.interrupts = false) (hcount : s.lockCount ≠ 0) (hready : s.schedulerReady = true) :
    schedule s = .ok { s with postponed := true } := by
  rw [schedule, assert_bind hints, assert_bind hcount, assert_bind hready]
  rfl

theorem schedule_unlock (hints : s.interrupts = false) (hcount : s.lockCount ≠ 0) (hready : s.schedulerReady = true) :
    (schedule s >>= schedulerUnlock) = schedulerUnlock { s with postponed := true } := by
  rw [schedule_ok hints hcount hready, ok_bind]

/-- `schedule` inside a section. -/
theorem schedule_steady (h : Steady s L c) (hlt : c.base < s.lockCount) (hc : c ≠ .boot) :
    schedule s = .ok { s with postponed := true } ∧ Steady { s with postponed := true } L c := by
  have hcount : s.lockCount ≠ 0 := by omega
  refine ⟨schedule_ok (h.ints hlt) hcount (h.schedulerReady hc), h.repr, h.placed, h.cpu, h.base, h.ints, ?_, ?_,
    h.idle⟩
  · exact fun h0 => absurd h0 hcount
  · exact fun hb => absurd hb hc

/-- `__task_block` of the running task. -/
theorem rawTaskBlock_spec (hrepr : Represents s.links L []) (hints : s.interrupts = false) (hcount : s.lockCount ≠ 0)
    (hnone : ∀ q, t ∉ L q) (reason : TaskState) : ∃ links, rawTaskBlock s q t reason =
      .ok { s with links := links, state := Function.update s.state t reason, blockedList := s.blockedList ++ [t] } ∧
      Represents links (Function.update L q (L q ++ [t])) [] := by
  obtain ⟨links, hqueue, hlinks⟩ := taskQueue_spec (s := s.setState t reason) (q := q) hrepr hints List.not_mem_nil
    hnone
  refine ⟨links, ?_, hlinks⟩
  rw [rawTaskBlock, assert_bind hcount, assert_bind hints, hqueue, ok_bind]
  rfl

/-- `__task_unblock` of a task that is off its queue. -/
theorem rawTaskUnblock_spec {off : List TaskId} (hrepr : Represents s.links L off) (hints : s.interrupts = false)
    (hcount : s.lockCount ≠ 0) (hoff : t ∉ off) (hnone : ∀ q, t ∉ L q) : ∃ links, rawTaskUnblock s t =
      .ok { s with links := links, state := Function.update s.state t .ready, blockedList := s.blockedList.erase t } ∧
      Represents links (Function.update L .readyQueue (L .readyQueue ++ [t])) off := by
  obtain ⟨links, hqueue, hlinks⟩ := taskQueue_spec (s := s.setState t .ready) (q := .readyQueue) hrepr hints hoff
    hnone
  refine ⟨links, ?_, hlinks⟩
  rw [rawTaskUnblock, assert_bind hcount, assert_bind hints, hqueue, ok_bind]
  rfl

/-- The states of parked tasks are not final. -/
theorem update_terminated {state : TaskId → TaskState} {v : TaskState} (hold : state t ≠ .terminated)
    (hnew : v ≠ .terminated) (u : TaskId) : Function.update state t v u = .terminated ↔ state u = .terminated := by
  rcases eq_or_ne u t with rfl | hu
  · simp [hold, hnew]
  · simp [hu]

theorem Fits.ne_terminated {v : TaskState} (h : Fits q v) : v ≠ .terminated := by
  rintro rfl
  rw [Fits] at h
  split at h <;> simp [Parked] at h

theorem Parked.ne_terminated {v : TaskState} (h : Parked v) : v ≠ .terminated := by
  rintro rfl
  simp [Parked] at h

/-- `task_unblock_next` up to its `scheduler_unlock`. -/
theorem taskUnblockNext_eq (h : Steady s L c) (hq : q ≠ .readyQueue) : ∃ s' L',
    taskUnblockNext s q = schedulerUnlock s' ∧ Steady s' L' c ∧ s'.lockCount = s.lockCount + 1 ∧
      Kept s (Function.update L q (L q).tail) s' L' := by
  obtain ⟨e, hlock, h₁⟩ := schedulerLock_spec h
  have hlt : c.base < s.lockCount + 1 := Nat.lt_succ_of_le h.base
  rw [taskUnblockNext, hlock, ok_bind]
  cases hL : L q with
  | nil =>
    refine ⟨_, L, ?_, h₁, rfl, fun p hp => ?_, rfl, rfl, rfl, rfl, fun _ => Iff.rfl⟩
    · rw [taskDequeue_nil h₁.repr rfl hL]; rfl
    · rw [List.tail_nil, ← hL, Function.update_eq_self]
  | cons a rest =>
    have ha : a ∈ L q := by simp [hL]
    have hc : c ≠ .boot := fun hb => by simp [(h.boot hb).2 q hq] at hL
    have hfits := ((h.placed a).of_mem ha).1
    obtain ⟨links, hdeq, hlinks⟩ := taskDequeue_cons h₁.repr rfl hL
    obtain ⟨links', hunblock, hlinks'⟩ := rawTaskUnblock_spec (t := a) (s := { s with
        interrupts := false, enableInts := e, lockCount := s.lockCount + 1, links := links }) hlinks rfl (by simp)
      List.not_mem_nil fun p hp => ((h.repr.mem_tail hL).1 hp).2 rfl
    have h₂ := placed_unblock h.placed ha fun p u => h.repr.mem_tail hL
    refine ⟨{ s with
        interrupts := false, enableInts := e, lockCount := s.lockCount + 1, links := links', postponed := true,
        state := Function.update s.state a .ready, blockedList := s.blockedList.erase a }, _, ?_,
      ⟨hlinks', h₂, h.cpu, Nat.le_of_lt hlt, fun _ => rfl, by simp, fun hb => absurd hb hc, h.idle⟩, rfl, ?_⟩
    · rw [hdeq, ok_bind]
      simp only [hunblock, ok_bind]
      exact schedule_unlock rfl (Nat.succ_ne_zero _) (h.schedulerReady hc)
    · refine ⟨fun p hp => ?_, rfl, rfl, rfl, rfl, ?_⟩
      · rw [Function.update_of_ne hp, List.tail_cons]
      · exact update_terminated hfits.ne_terminated (by simp)

end Sections

/-! ## Single operations -/

section Operations

variable {s : Sched} {L : QueuePtr → List TaskId} {c : Cpu}

/-- An operation that keeps everything but the ready queue and the lists `opLists` names. -/
theorem Stepped.of_kept {op : SchedOp} {s' : Sched} {L' : QueuePtr → List TaskId} {c' : Cpu} (h : Sound s L c)
    (hsteady : Steady s' L' c') (hkept : Kept s (opLists s L op) s' L') (hsems : opSemaphores s L op = s.semaphores)
    (htasks : opTasks s op = s.tasks) (hexit : op ≠ .taskExit)
    (hcpu : c' = c ∧ op ≠ .tick ∨ s'.lockCount = c'.base) : Stepped s L c op s' L' c' where
  sound := ⟨hsteady, by rw [hkept.semaphores]; exact h.spin⟩
  lists := hkept.lists
  semaphores := hkept.semaphores.trans hsems.symm
  mutexes := hkept.mutexes
  tasks := hkept.tasks.trans htasks.symm
  terminated := by simpa [hexit] using fun t _ => hkept.terminated t
  cpu := hcpu

theorem schedulerLock_stepped (h : Sound s L c) :
    ∃ s' L' c', schedulerLock s = .ok s' ∧ Stepped s L c .schedulerLock s' L' c' := by
  obtain ⟨e, hlock, hsteady⟩ := schedulerLock_spec h.toSteady
  exact ⟨_, L, c, hlock, .of_kept h hsteady ⟨fun _ _ => rfl, rfl, rfl, rfl, rfl, fun _ => Iff.rfl⟩ rfl rfl (by simp)
    (.inl ⟨rfl, by simp⟩)⟩

theorem schedulerUnlock_stepped (h : Sound s L c) (hlt : lockBase s < s.lockCount) :
    ∃ s' L' c', schedulerUnlock s = .ok s' ∧ Stepped s L c .schedulerUnlock s' L' c' := by
  rw [h.lockBase_eq] at hlt
  obtain ⟨s', L', c', hunlock, hsteady, hkept, hcpu⟩ := schedulerUnlock_spec h.toSteady hlt
  exact ⟨s', L', c', hunlock, .of_kept h hsteady hkept rfl rfl (by simp) (hcpu.imp (fun hc => ⟨hc.1, by simp⟩) id)⟩

theorem yield_stepped (h : Sound s L c) (hready : s.schedulerReady = true) :
    ∃ s' L' c', yield s = .ok s' ∧ Stepped s L c .yield s' L' c' := by
  obtain ⟨e, hlock, h₁⟩ := schedulerLock_spec h.toSteady
  have hlt : c.base < s.lockCount + 1 := Nat.lt_succ_of_le h.base
  obtain ⟨hsched, h₂⟩ := schedule_steady h₁ hlt (h.ne_boot hready)
  obtain ⟨s', L', c', hunlock, hsteady, hkept, hcpu⟩ := schedulerUnlock_spec h₂ hlt
  refine ⟨s', L', c', ?_, .of_kept h hsteady ?_ rfl rfl (by simp) (hcpu.imp (fun hc => ⟨hc.1, by simp⟩) id)⟩
  · rw [yield, hlock, ok_bind, hsched, ok_bind, hunlock]
  · exact ⟨hkept.lists, hkept.semaphores, hkept.mutexes, hkept.tasks, hkept.schedulerReady, hkept.terminated⟩

theorem taskUnblockNext_stepped (h : Sound s L c) {q : QueuePtr} (hq : q ≠ .readyQueue) :
    ∃ s' L' c', taskUnblockNext s q = .ok s' ∧ Stepped s L c (.taskUnblockNext q) s' L' c' := by
  obtain ⟨s₁, L₁, heq, hsteady₁, hcount, hkept₁⟩ := taskUnblockNext_eq h.toSteady hq
  have hlt : c.base < s₁.lockCount := by rw [hcount]; exact Nat.lt_succ_of_le h.base
  obtain ⟨s', L', c', hunlock, hsteady, hkept, hcpu⟩ := schedulerUnlock_spec hsteady₁ hlt
  exact ⟨s', L', c', heq.trans hunlock, .of_kept h hsteady (hkept₁.trans hkept) rfl rfl (by simp)
    (hcpu.imp (fun hc => ⟨hc.1, by simp⟩) id)⟩

/-- `task_unblock_next` inside a locked section does not switch. -/
theorem taskUnblockNext_nested (h : Steady s L c) {q : QueuePtr} (hq : q ≠ .readyQueue) (hlt : c.base < s.lockCount) :
    ∃ s' L', taskUnblockNext s q = .ok s' ∧ Steady s' L' c ∧ s'.lockCount = s.lockCount ∧
      Kept s (Function.update L q (L q).tail) s' L' := by
  obtain ⟨s₁, L₁, heq, h₁, hcount, hkept⟩ := taskUnblockNext_eq h hq
  have hints : s₁.interrupts = false := h₁.ints (by omega)
  refine ⟨{ s₁ with lockCount := s₁.lockCount - 1 }, L₁, heq.trans (schedulerUnlock_nested hints (by omega)), ?_,
    by simp [hcount], hkept.lists, hkept.semaphores, hkept.mutexes, hkept.tasks, hkept.schedulerReady, hkept.terminated⟩
  exact ⟨h₁.repr, h₁.placed, h₁.cpu, by simp only; omega, fun _ => hints, by simp only; omega, h₁.boot, h₁.idle⟩

theorem flags_stepped (h : Sound s L c) (hcount : s.lockCount = lockBase s) (b : Bool) :
    ∃ s' L' c', schedStep s (.flags b) = .ok s' ∧ Stepped s L c (.flags b) s' L' c' := by
  rw [h.lockBase_eq] at hcount
  refine ⟨_, L, c, rfl, .of_kept h ?_ ⟨fun _ _ => rfl, rfl, rfl, rfl, rfl, fun _ => Iff.rfl⟩ rfl rfl (by simp)
    (.inl ⟨rfl, by simp⟩)⟩
  exact ⟨h.repr, h.placed, h.cpu, h.base, fun hlt => absurd hlt (by simp [hcount]), h.postponed, h.boot, h.idle⟩

theorem idleWake_stepped (h : Sound s L c) (hidle : s.idle ≠ none) (hcount : s.lockCount = 1) :
    ∃ s' L' c', idleWake s = .ok s' ∧ Stepped s L c .idleWake s' L' c' := by
  obtain ⟨t, rfl⟩ := h.eq_idle hidle
  obtain ⟨s', L', c', hwake, hsteady, hcount', hkept⟩ := idleWake_spec h.toSteady hcount
  exact ⟨s', L', c', hwake, .of_kept h hsteady hkept rfl rfl (by simp) (.inr hcount')⟩

theorem taskExit_stepped (h : Sound s L c) (hcur : s.current ≠ none) (hcount : s.lockCount = 1) :
    ∃ s' L' c', taskExit s = .ok s' ∧ Stepped s L c .taskExit s' L' c' := by
  obtain ⟨t, rfl, hcur⟩ := h.eq_run hcur
  obtain ⟨hrun, hnone, htask⟩ := (h.placed t).of_run
  have hints : s.interrupts = false := h.ints (by simp [Cpu.base, hcount])
  have hcount₀ : s.lockCount - 1 = 0 := by omega
  have hdispatch : Dispatching { s.setState t .terminated with lockCount := s.lockCount - 1, postponed := false } L t
      none :=
    ⟨h.repr, placed_exit h.placed, h.cpu, hints, by simp [hcount], rfl, .inr ⟨rfl, htask, hnone _⟩⟩
  obtain ⟨s', L', c', hsched, hsteady, hcount', hkept⟩ := schedule_spec hdispatch
  refine ⟨s', L', c', ?_, ⟨hsteady, ?_⟩, hkept.lists, hkept.semaphores, hkept.mutexes, hkept.tasks, ?_, .inr hcount'⟩
  · simp only [taskExit, kassert, assert_pos hcount, ok_bind, currentTask_run h.cpu, assert_pos hrun,
      assert_pos hcount₀]
    exact hsched
  · rw [hkept.semaphores]; exact h.spin
  · intro u _
    apply (hkept.terminated u).trans
    rcases eq_or_ne u t with rfl | hu
    · simp [hcur]
    · simp [hcur, hu, hu.symm]

/-- The running task has joined a queue and asked for a switch. -/
theorem leave_spec {t : TaskId} {q : QueuePtr} {v : TaskState} {links : Links QueuePtr TaskId} (h : Steady s L (.run t))
    (hq : q ≠ .readyQueue) (hv : Parked v) (hlinks : Represents links (Function.update L q (L q ++ [t])) [])
    (e : Bool) (w : TaskId → BitVec 64) (l : List TaskId) {m : Nat} (hm : m = 1) :
    ∃ s' L' c', schedulerUnlock { s with
        links := links, state := Function.update s.state t v, waitTarget := w, blockedList := l, lockCount := m,
        postponed := true, enableInts := e, interrupts := false } = .ok s' ∧
      Steady s' L' c' ∧ s'.lockCount = c'.base ∧ Kept s (Function.update L q (L q ++ [t])) s' L' := by
  obtain ⟨hrun, hnone, htask⟩ := (h.placed t).of_run
  obtain ⟨s', L', c', hunlock, hsteady, hkept, hcount⟩ := schedulerUnlock_leave (t := t) (s := { s with
      links := links, state := Function.update s.state t v, waitTarget := w, blockedList := l, lockCount := m,
      postponed := true, enableInts := e, interrupts := false })
    ⟨hlinks, placed_leave h.placed ((fits_parked hq).2 hv), h.cpu, rfl, rfl, rfl, .inr ⟨rfl, htask, by
      rw [Function.update_of_ne hq.symm]; exact hnone _⟩⟩ hm rfl
  refine ⟨s', L', c', hunlock, hsteady, hcount, hkept.lists, hkept.semaphores, hkept.mutexes, hkept.tasks,
    hkept.schedulerReady, fun u => (hkept.terminated u).trans ?_⟩
  exact update_terminated (by simp [hrun]) hv.ne_terminated u

theorem taskBlock_stepped (h : Sound s L c) {q : QueuePtr} {reason : TaskState} (hcur : s.current ≠ none)
    (hcount : s.lockCount = 0) (hq : q ≠ .readyQueue) (hv : Parked reason) :
    ∃ s' L' c', taskBlock s q reason = .ok s' ∧ Stepped s L c (.taskBlock q reason) s' L' c' := by
  obtain ⟨t, rfl, hcur⟩ := h.eq_run hcur
  obtain ⟨hrun, hnone, htask⟩ := (h.placed t).of_run
  obtain ⟨e, hlock, h₁⟩ := schedulerLock_spec h.toSteady
  obtain ⟨links, hblock, hlinks⟩ := rawTaskBlock_spec (q := q) h₁.repr rfl (Nat.succ_ne_zero _) hnone reason
  obtain ⟨s', L', c', hunlock, hsteady, hcount', hkept⟩ := leave_spec h.toSteady hq hv hlinks e s.waitTarget
    (s.blockedList ++ [t]) (show s.lockCount + 1 = 1 by omega)
  refine ⟨s', L', c', ?_, .of_kept h hsteady ?_ rfl rfl (by simp) (.inr hcount')⟩
  · rw [taskBlock, hlock, ok_bind, assert_bind (by simp [hcount]), currentTask_run h₁.cpu, ok_bind,
      hblock, ok_bind]
    refine Eq.trans (schedule_unlock ?_ ?_ ?_) hunlock
    · rfl
    · exact Nat.succ_ne_zero _
    · exact h.cpu.1
  · rw [opLists, hcur]
    exact hkept

theorem taskSleepUntil_stepped (h : Sound s L c) (seen target : BitVec 64) (hcur : s.current ≠ none)
    (hcount : s.lockCount = 0) :
    ∃ s' L' c', taskSleepUntil s seen target = .ok s' ∧ Stepped s L c (.taskSleepUntil seen target) s' L' c' := by
  obtain ⟨t, rfl, hcur⟩ := h.eq_run hcur
  obtain ⟨hrun, hnone, htask⟩ := (h.placed t).of_run
  by_cases hle : target ≤ seen
  · refine ⟨s, L, .run t, ?_, .of_kept h h.toSteady ?_ rfl rfl (by simp) (.inr hcount)⟩
    · rw [taskSleepUntil, if_pos hle]; rfl
    · rw [opLists, if_pos hle]; exact .refl s L
  · obtain ⟨e, hlock, h₁⟩ := schedulerLock_spec h.toSteady
    obtain ⟨links, hqueue, hlinks⟩ := taskQueue_spec (q := .waitQueue) (t := t) (s := { s with
        interrupts := false, enableInts := e, lockCount := s.lockCount + 1,
        state := Function.update s.state t .waiting, waitTarget := Function.update s.waitTarget t target })
      h.repr rfl List.not_mem_nil hnone
    obtain ⟨s', L', c', hunlock, hsteady, hcount', hkept⟩ := leave_spec h.toSteady (by simp) (.inl rfl) hlinks e
      (Function.update s.waitTarget t target) s.blockedList (show s.lockCount + 1 = 1 by omega)
    refine ⟨s', L', c', ?_, .of_kept h hsteady ?_ rfl rfl (by simp) (.inr hcount')⟩
    · rw [taskSleepUntil, if_neg hle, hlock, ok_bind, assert_bind (by simp [hcount]),
        currentTask_run h₁.cpu, ok_bind, assert_bind hrun]
      simp only [hqueue, ok_bind]
      refine Eq.trans (schedule_unlock ?_ ?_ ?_) hunlock
      · rfl
      · exact Nat.succ_ne_zero _
      · exact h.cpu.1
    · rw [opLists, if_neg hle, hcur]
      exact hkept

theorem taskSleepMiliseconds_stepped (h : Sound s L c) (time : BitVec 64) (hcur : s.current ≠ none)
    (hcount : s.lockCount = 0) :
    ∃ s' L' c', taskSleepMiliseconds s time = .ok s' ∧ Stepped s L c (.taskSleepMiliseconds time) s' L' c' := by
  obtain ⟨t, rfl, hcur⟩ := h.eq_run hcur
  obtain ⟨hrun, hnone, htask⟩ := (h.placed t).of_run
  obtain ⟨e, hlock, h₁⟩ := schedulerLock_spec h.toSteady
  obtain ⟨links, hblock, hlinks⟩ := rawTaskBlock_spec (q := .waitQueue) (s := { s with
      interrupts := false, enableInts := e, lockCount := s.lockCount + 1,
      waitTarget := Function.update s.waitTarget t (s.timerTicks + time) })
    h.repr rfl (Nat.succ_ne_zero _) hnone .waiting
  obtain ⟨s', L', c', hunlock, hsteady, hcount', hkept⟩ := leave_spec h.toSteady (by simp) (.inl rfl) hlinks e
    (Function.update s.waitTarget t (s.timerTicks + time)) (s.blockedList ++ [t]) (show s.lockCount + 1 = 1 by omega)
  refine ⟨s', L', c', ?_, .of_kept h hsteady ?_ rfl rfl (by simp) (.inr hcount')⟩
  · rw [taskSleepMiliseconds, hlock, ok_bind, assert_bind (by simp [hcount]), currentTask_run h₁.cpu,
      ok_bind]
    simp only [hblock, ok_bind]
    refine Eq.trans (schedule_unlock ?_ ?_ ?_) hunlock
    · rfl
    · exact Nat.succ_ne_zero _
    · exact h.cpu.1
  · rw [opLists, hcur]
    exact hkept

theorem taskAdd_stepped (h : Sound s L c) {t : TaskId} (ht : t ∉ s.tasks) :
    ∃ s' L' c', taskAdd s t = .ok s' ∧ Stepped s L c (.taskAdd t) s' L' c' := by
  have hnone : ∀ q, t ∉ L q := fun q hq => ht ((h.placed t).of_mem hq).2.2.1
  obtain ⟨e, hlock⟩ := schedulerLock_ok (s := { s.setState t .ready with tasks := t :: s.tasks }) h.postponed
  obtain ⟨links, hqueue, hlinks⟩ := taskQueue_spec (q := .readyQueue) (t := t) (s := { s.setState t .ready with
      tasks := t :: s.tasks, interrupts := false, enableInts := e, lockCount := s.lockCount + 1 })
    h.repr rfl List.not_mem_nil hnone
  have hlt : c.base < s.lockCount + 1 := Nat.lt_succ_of_le h.base
  have h₁ : Steady { s.setState t .ready with
      tasks := t :: s.tasks, interrupts := false, enableInts := e, lockCount := s.lockCount + 1, links := links }
      (Function.update L .readyQueue (L .readyQueue ++ [t])) c := by
    refine ⟨hlinks, placed_add h.placed ht, h.cpu, Nat.le_of_lt hlt, fun _ => rfl, by simp, fun hb => ?_, ?_⟩
    · refine ⟨(h.boot hb).1, fun q hq => ?_⟩
      rw [Function.update_of_ne hq]
      exact (h.boot hb).2 q hq
    · exact fun u hu => List.mem_cons_of_mem t (h.idle u hu)
  obtain ⟨s', L', c', hunlock, hsteady, hkept, hcpu⟩ := schedulerUnlock_spec h₁ hlt
  refine ⟨s', L', c', ?_, ⟨hsteady, ?_⟩, fun q hq => ?_, hkept.semaphores, hkept.mutexes, hkept.tasks, fun u hu => ?_,
    hcpu.imp (fun hc => ⟨hc.1, by simp⟩) id⟩
  · rw [taskAdd, hlock, ok_bind]
    exact (congrArg (· >>= schedulerUnlock) hqueue).trans hunlock
  · rw [hkept.semaphores]; exact h.spin
  · rw [hkept.lists q hq, Function.update_of_ne hq]; rfl
  · apply (hkept.terminated u).trans
    have hut : u ≠ t := ne_of_mem_of_not_mem hu ht
    simp [hut]

theorem taskingEnable_stepped (h : Sound s L c) (hready : s.schedulerReady = false) (hcount : s.lockCount = 0)
    (hfirst : (s.links.queues .readyQueue).first ≠ none) :
    ∃ s' L' c', taskingEnable s = .ok s' ∧ Stepped s L c .taskingEnable s' L' c' := by
  obtain rfl : c = .boot := by
    by_contra hc
    simp [h.schedulerReady hc] at hready
  cases hL : L .readyQueue with
  | nil => exact absurd (h.repr.first_eq_none.2 hL) hfirst
  | cons n rest =>
    have hn : n ∈ L .readyQueue := by simp [hL]
    have hstate : s.state n = .ready := fits_ready.1 ((h.placed n).of_mem hn).1
    obtain ⟨links, hdeq, hlinks⟩ := taskDequeue_cons (s := { s with interrupts := false, schedulerReady := true })
      h.repr rfl hL
    obtain ⟨hsteady, hkept⟩ := dispatch_spec (s := { s with interrupts := false, schedulerReady := true }) s.switched
      h.placed rfl h.cpu.2.2 hcount (h.postponed hcount) hn (fun p u => h.repr.mem_tail hL)
      (fun q hq => Function.update_of_ne hq ..) hlinks
    obtain ⟨e, i, hafter, hsteady'⟩ := afterSchedule_spec (b := s.switched n) hsteady hcount
    refine ⟨_, _, .run n, ?_, ⟨hsteady', h.spin⟩, fun q hq => ?_, rfl, rfl, rfl, fun u _ => ?_, .inr hcount⟩
    · simp only [taskingEnable, kassert, assert_pos hready, ok_bind, assert_pos h.cpu.2.1, hdeq,
        assert_pos hstate]
      rw [assert_pos hcount, ok_bind, restoreTask_spec, ok_bind, ← hafter]
      · rfl
      · rfl
      · exact hcount
    · exact hkept.lists q hq
    · simpa using hkept.terminated u

/-! ## Semaphores -/

theorem spinLock_spec (h : Sound s L c) (i : Nat) : ∃ e, spinLock s i = .ok { s with
    interrupts := false, enableInts := e, lockCount := s.lockCount + 1,
    semaphores := Function.update s.semaphores i ⟨(s.semaphores i).count, 1#32⟩ } := by
  obtain ⟨e, hlock⟩ := schedulerLock_ok h.postponed
  refine ⟨e, ?_⟩
  rw [spinLock, hlock, ok_bind, assert_bind (h.spin i)]
  rfl

theorem spinUnlock_eq {i : Nat} {v : Word} (hlock : s.semaphores i = ⟨v, 1#32⟩) :
    spinUnlock s i = schedulerUnlock { s with semaphores := Function.update s.semaphores i ⟨v, 0#32⟩ } := by
  rw [spinUnlock, assert_bind (by rw [hlock]), hlock]

/-- The rest of a semaphore call whose section has left the processor to its task. -/
theorem spinUnlock_stepped (op : SchedOp) {i : Nat} {v : Word} {s₁ : Sched} {L₁ : QueuePtr → List TaskId}
    (h : Sound s L c) (h₁ : Steady s₁ L₁ c) (hlt : c.base < s₁.lockCount)
    (hsems : s₁.semaphores = Function.update s.semaphores i ⟨v, 1#32⟩)
    (hop : opSemaphores s L op = Function.update s.semaphores i ⟨v, 0#32⟩)
    (hkept : Kept { s with semaphores := Function.update s.semaphores i ⟨v, 1#32⟩ } (opLists s L op) s₁ L₁)
    (htasks : opTasks s op = s.tasks) (hexit : op ≠ .taskExit) (htick : op ≠ .tick) :
    ∃ s' L' c', spinUnlock s₁ i = .ok s' ∧ Stepped s L c op s' L' c' := by
  have h₂ : Steady { s₁ with semaphores := Function.update s.semaphores i ⟨v, 0#32⟩ } L₁ c :=
    ⟨h₁.repr, h₁.placed, h₁.cpu, h₁.base, h₁.ints, h₁.postponed, h₁.boot, h₁.idle⟩
  obtain ⟨s', L', c', hunlock, hsteady, hkept', hcpu⟩ := schedulerUnlock_spec h₂ hlt
  refine ⟨s', L', c', ?_, ⟨hsteady, fun j => ?_⟩, fun q hq => ?_, ?_, ?_, ?_, fun t _ => ?_,
    hcpu.imp (fun hc => ⟨hc.1, htick⟩) id⟩
  · rw [spinUnlock_eq (v := v) (by rw [hsems, Function.update_self]), hsems, Function.update_idem]
    exact hunlock
  · rw [hkept'.semaphores]
    rcases eq_or_ne j i with rfl | hj
    · simp
    · simp [hj, h.spin j]
  · rw [hkept'.lists q hq, hkept.lists q hq]
  · rw [hkept'.semaphores, hop]
  · rw [hkept'.mutexes]; exact hkept.mutexes
  · rw [hkept'.tasks, htasks]; exact hkept.tasks
  · simpa [hexit] using (hkept'.terminated t).trans (hkept.terminated t)

theorem semaphoreRelease_stepped (h : Sound s L c) (i : Nat) :
    ∃ s' L' c', semaphoreRelease s i = .ok s' ∧ Stepped s L c (.semaphoreRelease i) s' L' c' := by
  obtain ⟨e, hlock⟩ := spinLock_spec h i
  have hlt : c.base < s.lockCount + 1 := Nat.lt_succ_of_le h.base
  have h₁ : ∀ v, Steady { s with
      interrupts := false, enableInts := e, lockCount := s.lockCount + 1,
      semaphores := Function.update s.semaphores i v } L c := fun v =>
    ⟨h.repr, h.placed, h.cpu, Nat.le_of_lt hlt, fun _ => rfl, by simp, h.boot, h.idle⟩
  rw [semaphoreRelease, hlock, ok_bind]
  cases hL : L (.semaphore i) with
  | nil =>
    obtain ⟨s', L', c', hspin, hstep⟩ := spinUnlock_stepped (.semaphoreRelease i) (i := i)
      (v := (s.semaphores i).count + 1#32) h (h₁ ⟨(s.semaphores i).count + 1#32, 1#32⟩) hlt rfl
      (by rw [opSemaphores, if_pos hL]) ⟨fun q _ => by rw [opLists, hL, List.tail_nil, ← hL, Function.update_eq_self],
        rfl, rfl, rfl, rfl, fun _ => Iff.rfl⟩ rfl (by simp) (by simp)
    refine ⟨s', L', c', ?_, hstep⟩
    rw [releaseSection, if_neg (by simpa using h.repr.first_eq_none.2 hL)]
    simpa [Sched.setSemaphore, pure, Except.pure] using hspin
  | cons a rest =>
    obtain ⟨e', hlock', h₂⟩ := schedulerLock_spec (h₁ ⟨(s.semaphores i).count, 1#32⟩)
    obtain ⟨s₃, L₃, heq, h₃, hcount, hkept⟩ := taskUnblockNext_eq (q := .semaphore i) h₂ (by simp)
    have hcount₃ : s₃.lockCount = s.lockCount + 3 := hcount
    have hints : s₃.interrupts = false := h₃.ints (by omega)
    have h₄ : Steady { s₃ with lockCount := s₃.lockCount - 1 - 1 } L₃ c :=
      ⟨h₃.repr, h₃.placed, h₃.cpu, by simp only; omega, fun _ => hints, by simp only; omega, h₃.boot, h₃.idle⟩
    obtain ⟨s', L', c', hspin, hstep⟩ := spinUnlock_stepped (.semaphoreRelease i) (i := i)
      (v := (s.semaphores i).count) h h₄ (by simp only; omega) hkept.semaphores
      (by rw [opSemaphores, if_neg (by simp [hL]), ← h.spin i, Function.update_eq_self])
      ⟨hkept.lists, hkept.semaphores, hkept.mutexes, hkept.tasks, hkept.schedulerReady, hkept.terminated⟩ rfl (by simp)
      (by simp)
    refine ⟨s', L', c', ?_, hstep⟩
    rw [releaseSection, if_pos (by simp [h.repr.first, hL]), hlock', ok_bind, heq,
      schedulerUnlock_nested hints (by omega), ok_bind,
      schedulerUnlock_nested (s := { s₃ with lockCount := s₃.lockCount - 1 }) hints (by simp only; omega), ok_bind]
    exact hspin

theorem semaphoreAcquire_stepped (h : Sound s L c) (i : Nat) (hcur : s.current ≠ none) (hcount : s.lockCount = 0) :
    ∃ s' L' c', semaphoreAcquire s i = .ok s' ∧ Stepped s L c (.semaphoreAcquire i) s' L' c' := by
  obtain ⟨t, rfl, hcur⟩ := h.eq_run hcur
  obtain ⟨hrun, hnone, htask⟩ := (h.placed t).of_run
  obtain ⟨e, hlock⟩ := spinLock_spec h i
  have h₁ : ∀ v, Steady { s with
      interrupts := false, enableInts := e, lockCount := s.lockCount + 1,
      semaphores := Function.update s.semaphores i v } L (.run t) := fun v =>
    ⟨h.repr, h.placed, h.cpu, Nat.zero_le _, fun _ => rfl, by simp, h.boot, h.idle⟩
  rw [semaphoreAcquire, hlock, ok_bind]
  by_cases hpos : 0#32 < (s.semaphores i).count
  · obtain ⟨s', L', c', hspin, hstep⟩ := spinUnlock_stepped (.semaphoreAcquire i) (i := i)
      (v := (s.semaphores i).count - 1#32) h (h₁ ⟨(s.semaphores i).count - 1#32, 1#32⟩) (Nat.succ_pos _) rfl
      (by rw [opSemaphores, if_pos hpos]) ⟨fun q _ => by rw [opLists, if_pos hpos], rfl, rfl, rfl, rfl,
        fun _ => Iff.rfl⟩ rfl (by simp) (by simp)
    refine ⟨s', L', c', ?_, hstep⟩
    rw [acquireSection, if_pos (by simpa using hpos)]
    simpa [Sched.setSemaphore, pure, Except.pure, assert_pos, hcount] using hspin
  · obtain ⟨e', hlock', h₂⟩ := schedulerLock_spec (h₁ ⟨(s.semaphores i).count, 1#32⟩)
    obtain ⟨links, hblock, hlinks⟩ := rawTaskBlock_spec (q := .semaphore i) h₂.repr rfl (Nat.succ_ne_zero _) hnone
      .blockedLock
    obtain ⟨s', L', c', hunlock, hsteady, hcount', hkept⟩ := leave_spec h.toSteady (by simp) (.inr (.inr rfl)) hlinks e'
      s.waitTarget (s.blockedList ++ [t]) (show s.lockCount + 1 = 1 by omega)
    refine ⟨s', L', c', ?_, .of_kept h hsteady ?_ ?_ rfl (by simp) (.inr hcount')⟩
    · rw [acquireSection, if_neg (by simpa using hpos), hlock', ok_bind, currentTask_run h₂.cpu, ok_bind, hblock,
        ok_bind, schedule_unlock, schedulerUnlock_nested, ok_bind, assert_bind (by simp [hcount]),
        spinUnlock_eq (v := (s.semaphores i).count)]
      · simpa [Function.update_idem, ← h.spin i, Function.update_eq_self] using hunlock
      · simp
      · rfl
      · simp
      · rfl
      · simp
      · exact h.cpu.1
    · rw [opLists, if_neg hpos, hcur]
      exact hkept
    · rw [opSemaphores, if_neg hpos]

/-- The count of a semaphore is nothing the scheduler looks at. -/
theorem Sound.setCount (h : Sound s L c) (i : Nat) (count : Word) :
    Sound (s.setSemaphore i ⟨count, (s.semaphores i).lock⟩) L c := by
  refine ⟨⟨h.repr, h.placed, h.cpu, h.base, h.ints, h.postponed, h.boot, h.idle⟩, fun j => ?_⟩
  rcases eq_or_ne j i with rfl | hj
  · simpa using h.spin j
  · simpa [hj] using h.spin j

/-- A release makes one unit: it is counted, or the first waiting task holds it. -/
theorem semaphoreRelease_units (h : Sound s L c) (i : Nat) (holders : List TaskId)
    (hroom : (s.semaphores i).count.toNat + 1 < 0x100000000) :
    ∃ s', semaphoreRelease s i = .ok s' ∧ (∃ L c, Sound s' L c) ∧
      (s'.semaphores i).count.toNat + ((s.links.queues (.semaphore i)).first.toList ++ holders).length =
        (s.semaphores i).count.toNat + holders.length + 1 := by
  obtain ⟨s', L', c', hrun, hstep⟩ := semaphoreRelease_stepped h i
  refine ⟨s', hrun, ⟨L', c', hstep.sound⟩, ?_⟩
  rw [hstep.semaphores, opSemaphores]
  cases hL : L (.semaphore i) with
  | nil =>
    rw [if_pos rfl, Function.update_self, h.repr.first_eq_none.2 hL]
    have hcount : ((s.semaphores i).count + 1#32).toNat = (s.semaphores i).count.toNat + 1 := by bv_omega
    simp only [Option.toList_none, List.nil_append, hcount]
    omega
  | cons t rest =>
    rw [if_neg (by simp), h.repr.first_eq_some.2 ⟨rest, hL⟩]
    simp only [Option.toList_some, List.cons_append, List.nil_append, List.length_cons]
    omega

/-- An acquire makes no unit: the task takes a unit that was counted, or waits. -/
theorem semaphoreAcquire_units (h : Sound s L c) (i : Nat) (holders : List TaskId) (hcur : s.current ≠ none)
    (hcount : s.lockCount = 0) :
    ∃ s', semaphoreAcquire s i = .ok s' ∧ (∃ L c, Sound s' L c) ∧
      (s'.semaphores i).count.toNat +
          (if 0#32 < (s.semaphores i).count then s.current.toList ++ holders else holders).length =
        (s.semaphores i).count.toNat + holders.length := by
  obtain ⟨t, -, hcur'⟩ := h.eq_run hcur
  obtain ⟨s', L', c', hrun, hstep⟩ := semaphoreAcquire_stepped h i hcur hcount
  refine ⟨s', hrun, ⟨L', c', hstep.sound⟩, ?_⟩
  rw [hstep.semaphores, opSemaphores]
  split
  · have hunit : ((s.semaphores i).count - 1#32).toNat + 1 = (s.semaphores i).count.toNat := by bv_omega
    simp only [Function.update_self, hcur', Option.toList_some, List.cons_append, List.nil_append, List.length_cons]
    omega
  · rfl

/-! ## The timer -/

/-- The timer has reached the wake-up time of a task. -/
def due (s : Sched) (t : TaskId) : Bool := decide (s.waitTarget t ≤ s.timerTicks)

/-- The queues when the tasks of a chain have been put where they belong: the due ones at the end of the ready queue, the
others at the end of the wait queue. -/
def wokenLists (s : Sched) (L : QueuePtr → List TaskId) (off : List TaskId) : QueuePtr → List TaskId :=
  Function.update (Function.update L .readyQueue (L .readyQueue ++ off.filter (due s))) .waitQueue
    (L .waitQueue ++ off.filter fun t => ! due s t)

theorem wokenLists_ready {s : Sched} {off : List TaskId} :
    wokenLists s L off .readyQueue = L .readyQueue ++ off.filter (due s) := by
  rw [wokenLists, Function.update_of_ne (by simp), Function.update_self]

theorem wokenLists_wait {s : Sched} {off : List TaskId} :
    wokenLists s L off .waitQueue = L .waitQueue ++ off.filter fun t => ! due s t := by
  rw [wokenLists, Function.update_self]

theorem wokenLists_other {s : Sched} {off : List TaskId} {q : QueuePtr} (hq : q ≠ .readyQueue) (hw : q ≠ .waitQueue) :
    wokenLists s L off q = L q := by
  rw [wokenLists, Function.update_of_ne hw, Function.update_of_ne hq]

/-- Only the wake-up times of the chain matter. -/
theorem wokenLists_congr {s s' : Sched} {off : List TaskId} (h : ∀ t ∈ off, due s' t = due s t) :
    wokenLists s' L off = wokenLists s L off := by
  have hneg : ∀ t ∈ off, (! due s' t) = ! due s t := fun t ht => by rw [h t ht]
  rw [wokenLists, wokenLists, List.filter_congr h, List.filter_congr hneg]

/-- What the loop of `scheduler_wakeup` does with the chain `off`. -/
structure Woken (s : Sched) (L : QueuePtr → List TaskId) (off : List TaskId) (s' : Sched) : Prop where
  repr : Represents s'.links (wokenLists s L off) []
  state : ∀ t, s'.state t = if t ∈ off ∧ due s t = true then .ready else s.state t
  target : ∀ t, s'.waitTarget t = if t ∈ off ∧ due s t = true then 0 else s.waitTarget t

/-- The first task of the chain is due. -/
theorem Woken.cons_due {s s₁ s' : Sched} {a : TaskId} {off : List TaskId}
    (h : Woken s₁ (Function.update L .readyQueue (L .readyQueue ++ [a])) off s') (haoff : a ∉ off)
    (hdue : due s a = true) (hstate : s₁.state = Function.update s.state a .ready)
    (htarget : s₁.waitTarget = Function.update s.waitTarget a 0) (hticks : s₁.timerTicks = s.timerTicks) :
    Woken s L (a :: off) s' := by
  have hsame : ∀ t, t ≠ a → due s₁ t = due s t := by
    intro t ht
    rw [due, due, htarget, hticks, Function.update_of_ne ht]
  have hoff : ∀ t ∈ off, due s₁ t = due s t := fun t ht => hsame t (ne_of_mem_of_not_mem ht haoff)
  have hlists : wokenLists s₁ (Function.update L .readyQueue (L .readyQueue ++ [a])) off = wokenLists s L (a :: off) := by
    rw [wokenLists_congr hoff, wokenLists, wokenLists, Function.update_self, Function.update_idem,
      Function.update_of_ne (by simp), List.filter_cons_of_pos hdue, List.filter_cons_of_neg (by simp [hdue]),
      List.append_assoc]
    rfl
  refine ⟨hlists ▸ h.repr, fun t => ?_, fun t => ?_⟩
  · rw [h.state]
    rcases eq_or_ne t a with rfl | ht
    · rw [if_neg fun hmem => haoff hmem.1, if_pos ⟨List.mem_cons_self, hdue⟩, hstate, Function.update_self]
    · simp only [hsame t ht, hstate, Function.update_of_ne ht, List.mem_cons, ht, false_or]
  · rw [h.target]
    rcases eq_or_ne t a with rfl | ht
    · rw [if_neg fun hmem => haoff hmem.1, if_pos ⟨List.mem_cons_self, hdue⟩, htarget, Function.update_self]
    · simp only [hsame t ht, htarget, Function.update_of_ne ht, List.mem_cons, ht, false_or]

/-- The first task of the chain goes back. -/
theorem Woken.cons_asleep {s s₁ s' : Sched} {a : TaskId} {off : List TaskId}
    (h : Woken s₁ (Function.update L .waitQueue (L .waitQueue ++ [a])) off s') (hdue : due s a = false)
    (hstate : s₁.state = s.state) (htarget : s₁.waitTarget = s.waitTarget) (hticks : s₁.timerTicks = s.timerTicks) :
    Woken s L (a :: off) s' := by
  have hsame : ∀ t, due s₁ t = due s t := by
    intro t
    rw [due, due, htarget, hticks]
  have hlists : wokenLists s₁ (Function.update L .waitQueue (L .waitQueue ++ [a])) off = wokenLists s L (a :: off) := by
    rw [wokenLists_congr fun t _ => hsame t, wokenLists, wokenLists, Function.update_self,
      Function.update_of_ne (by simp), List.filter_cons_of_neg (by simp [hdue]),
      List.filter_cons_of_pos (by simp [hdue]), List.append_assoc, List.singleton_append,
      Function.update_comm (show QueuePtr.waitQueue ≠ .readyQueue by simp), Function.update_idem]
  have hcond : ∀ t, t ∈ a :: off ∧ due s t = true ↔ t ∈ off ∧ due s₁ t = true := by
    intro t
    rw [hsame]
    rcases eq_or_ne t a with rfl | ht
    · simp [hdue]
    · simp [ht]
  refine ⟨hlists ▸ h.repr, fun t => ?_, fun t => ?_⟩
  · simp only [h.state, hstate, hcond]
  · simp only [h.target, htarget, hcond]

/-- The loop of `scheduler_wakeup` over a chain that is off its queue. -/
theorem wakeupLoop_woken {off : List TaskId} {rounds : Nat} {s : Sched} {L : QueuePtr → List TaskId}
    (hlen : off.length ≤ rounds) (hrepr : Represents s.links L off) (hints : s.interrupts = false)
    (hcount : s.lockCount ≠ 0) :
    ∃ links state w l, wakeupLoop rounds off.head? s =
        .ok { s with links := links, state := state, waitTarget := w, blockedList := l } ∧
      Woken s L off { s with links := links, state := state, waitTarget := w, blockedList := l } := by
  induction off generalizing rounds s L with
  | nil =>
    refine ⟨s.links, s.state, s.waitTarget, s.blockedList, ?_, ?_, fun t => ?_, fun t => ?_⟩
    · cases rounds <;> rfl
    · simpa [wokenLists] using hrepr
    · simp
    · simp
  | cons a off ih =>
    obtain ⟨rounds, rfl⟩ : ∃ r, rounds = r + 1 := Nat.exists_eq_succ_of_ne_zero (by rintro rfl; simp at hlen)
    obtain ⟨hnext, hrepr'⟩ := hrepr.off_cons
    have haL : ∀ q, a ∉ L q := fun q => hrepr.offApart q a List.mem_cons_self
    have haoff : a ∉ off := (List.nodup_cons.1 hrepr.offNodup).1
    have hlen' : off.length ≤ rounds := by simpa using hlen
    rw [List.head?_cons, wakeupLoop, hnext]
    by_cases hle : s.waitTarget a ≤ s.timerTicks
    · -- the task wakes up
      obtain ⟨links₁, hunblock, hrepr₁⟩ := rawTaskUnblock_spec (t := a) (s := { s with
          links := s.links.setNext a none, waitTarget := Function.update s.waitTarget a 0 })
        hrepr' hints hcount haoff haL
      obtain ⟨links, state, w, l, hloop, hwoken⟩ := ih (s := { s with
          links := links₁, state := Function.update s.state a .ready, waitTarget := Function.update s.waitTarget a 0,
          blockedList := s.blockedList.erase a }) hlen' hrepr₁ hints hcount
      refine ⟨links, state, w, l, ?_, hwoken.cons_due haoff (decide_eq_true hle) rfl rfl rfl⟩
      simp only [wakeupTask, if_pos hle, hunblock, ok_bind]
      exact hloop
    · -- the task goes back
      obtain ⟨links₁, hqueue, hrepr₁⟩ := taskQueue_spec (q := .waitQueue) (t := a) (s := { s with
          links := s.links.setNext a none }) hrepr' hints haoff haL
      obtain ⟨links, state, w, l, hloop, hwoken⟩ := ih (s := { s with links := links₁ }) hlen' hrepr₁ hints hcount
      refine ⟨links, state, w, l, ?_, hwoken.cons_asleep (decide_eq_false hle) rfl rfl rfl⟩
      simp only [wakeupTask, if_neg hle, hqueue, ok_bind]
      exact hloop

/-- Every task has a place again; those on the chain count as waiting before. -/
theorem Woken.placed {run : Option TaskId} {off : List TaskId} {s s' : Sched} {L : QueuePtr → List TaskId}
    (h : Woken s L off s')
    (hplaced : ∀ u, Placed s.state s.tasks (Function.update L .waitQueue (L .waitQueue ++ off)) run u) :
    ∀ u, Placed s'.state s.tasks (wokenLists s L off) run u := by
  intro u
  have hwoken := h.state u
  by_cases hu : u ∈ off
  · obtain ⟨hfits, hrun, hadd, -⟩ := (hplaced u).of_mem (q := .waitQueue) (by simp [hu])
    by_cases hdue : due s u = true
    · have hmem : u ∈ wokenLists s L off .readyQueue := by
        rw [wokenLists_ready]
        exact List.mem_append_right _ (List.mem_filter.2 ⟨hu, hdue⟩)
      refine .queued .readyQueue hmem (fun q hq => h.repr.apart _ _ u hq hmem) ?_ hrun hadd
      rw [hwoken, if_pos ⟨hu, hdue⟩]
      exact fits_ready.2 rfl
    · have hmem : u ∈ wokenLists s L off .waitQueue := by
        rw [wokenLists_wait]
        exact List.mem_append_right _ (List.mem_filter.2 ⟨hu, by simpa using hdue⟩)
      refine .queued .waitQueue hmem (fun q hq => h.repr.apart _ _ u hq hmem) ?_ hrun hadd
      rw [hwoken, if_neg fun hd => hdue hd.2]
      exact hfits
  · refine (hplaced u).congr ?_ (fun q => ?_) Iff.rfl Iff.rfl
    · rw [hwoken, if_neg fun hd => hu hd.1]
    · rcases eq_or_ne q .waitQueue with rfl | hw
      · simp [wokenLists_wait, hu]
      rw [Function.update_of_ne hw]
      rcases eq_or_ne q .readyQueue with rfl | hq
      · simp [wokenLists_ready, hu]
      · rw [wokenLists_other hq hw]

/-- The loop of `scheduler_wakeup`. The chain `off` is still to be walked; the tasks on it count as waiting. -/
theorem wakeupLoop_spec {run : Option TaskId} {off : List TaskId} {rounds : Nat} {s : Sched}
    {L : QueuePtr → List TaskId} (hlen : off.length ≤ rounds) (hrepr : Represents s.links L off)
    (hints : s.interrupts = false) (hcount : s.lockCount ≠ 0)
    (hplaced : ∀ u, Placed s.state s.tasks (Function.update L .waitQueue (L .waitQueue ++ off)) run u) :
    ∃ links state w l L', wakeupLoop rounds off.head? s =
        .ok { s with links := links, state := state, waitTarget := w, blockedList := l } ∧
      Represents links L' [] ∧ (∀ u, Placed state s.tasks L' run u) ∧
      (∀ q, q ≠ .readyQueue → q ≠ .waitQueue → L' q = L q) ∧
      L' .waitQueue = L .waitQueue ++ off.filter (fun t => ! decide (s.waitTarget t ≤ s.timerTicks)) ∧
      ∀ u, state u = .terminated ↔ s.state u = .terminated := by
  obtain ⟨links, state, w, l, hloop, hwoken⟩ := wakeupLoop_woken hlen hrepr hints hcount
  refine ⟨links, state, w, l, wokenLists s L off, hloop, hwoken.repr, hwoken.placed hplaced,
    fun q hq hw => wokenLists_other hq hw, wokenLists_wait, fun u => ?_⟩
  have hstate : state u = if u ∈ off ∧ due s u = true then .ready else s.state u := hwoken.state u
  by_cases hu : u ∈ off ∧ due s u = true
  · have hold := ((hplaced u).of_mem (q := .waitQueue) (by simp [hu.1])).1.ne_terminated
    simp [hstate, hu, hold]
  · rw [hstate, if_neg hu]

theorem tick_stepped (h : Sound s L c) (hcount : s.lockCount = lockBase s) :
    ∃ s' L' c', irq0Handler s = .ok s' ∧ Stepped s L c .tick s' L' c' := by
  rw [h.lockBase_eq] at hcount
  by_cases hready : s.schedulerReady = false
  · refine ⟨{ s with timerTicks := s.timerTicks + 1 }, L, c, ?_, .of_kept h ?_ ?_ rfl rfl (by simp) (.inr hcount)⟩
    · rw [irq0Handler, schedulerWakeup, if_pos hready]; rfl
    · exact ⟨h.repr, h.placed, h.cpu, h.base, h.ints, h.postponed, h.boot, h.idle⟩
    · rw [opLists, if_pos hready]
      exact ⟨fun _ _ => rfl, rfl, rfl, rfl, rfl, fun _ => Iff.rfl⟩
  · have hready' : s.schedulerReady = true := by simpa using hready
    have hc := h.ne_boot hready'
    have hlt : c.base < s.lockCount + 1 := Nat.lt_succ_of_le h.base
    obtain ⟨e, hlock⟩ := schedulerLock_ok (s := { s with timerTicks := s.timerTicks + 1 }) h.postponed
    have hlen : (L .waitQueue).length ≤ s.tasks.length :=
      (h.repr.nodup .waitQueue).length_le_of_subset fun t ht => ((h.placed t).of_mem ht).2.2.1
    obtain ⟨links, state, w, l, L₁, hloop, hrepr₁, hplaced₁, hL₁, hwait, hterm⟩ := wakeupLoop_spec (s := { s with
        timerTicks := s.timerTicks + 1, interrupts := false, enableInts := e, lockCount := s.lockCount + 1,
        links := s.links.setQueue .waitQueue ⟨none, none⟩ }) hlen (h.repr.detach .waitQueue) rfl (Nat.succ_ne_zero _)
      (by rw [Function.update_idem, Function.update_self, List.nil_append, Function.update_eq_self]; exact h.placed)
    have h₁ : Steady { s with
        timerTicks := s.timerTicks + 1, interrupts := false, enableInts := e, lockCount := s.lockCount + 1,
        links := links, state := state, waitTarget := w, blockedList := l, postponed := true } L₁ c :=
      ⟨hrepr₁, hplaced₁, h.cpu, Nat.le_of_lt hlt, fun _ => rfl, by simp, fun hb => absurd hb hc, h.idle⟩
    obtain ⟨s', L', c', hunlock, hsteady, hkept, hcpu⟩ := schedulerUnlock_spec h₁ hlt
    refine ⟨s', L', c', ?_, .of_kept h hsteady ⟨fun q hq => ?_, hkept.semaphores, hkept.mutexes, hkept.tasks,
      hkept.schedulerReady, fun u => (hkept.terminated u).trans (hterm u)⟩ rfl rfl (by simp) (.inr ?_)⟩
    · rw [irq0Handler, schedulerWakeup, if_neg hready, hlock, ok_bind]
      simp only [h.repr.first, hloop, ok_bind]
      refine Eq.trans (schedule_unlock ?_ ?_ ?_) hunlock
      · rfl
      · exact Nat.succ_ne_zero _
      · exact hready'
    · rw [hkept.lists q hq, opLists, if_neg hready]
      rcases eq_or_ne q .waitQueue with rfl | hw
      · rw [hwait, Function.update_self, Function.update_self, List.nil_append]
        rfl
      · rw [hL₁ q hq hw, Function.update_of_ne hw, Function.update_of_ne hw]
    · rcases hcpu with ⟨rfl, hcpu⟩ | hcpu
      · rw [hcpu, ← hcount]; rfl
      · exact hcpu

/-- **What one operation does.** -/
theorem schedStep_spec {op : SchedOp} (h : Sound s L c) (hl : Legal s op) :
    ∃ s' L' c', schedStep s op = .ok s' ∧ Stepped s L c op s' L' c' := by
  cases op with
  | flags b => exact flags_stepped h hl b
  | schedulerLock => exact schedulerLock_stepped h
  | schedulerUnlock => exact schedulerUnlock_stepped h hl
  | taskAdd task => exact taskAdd_stepped h hl
  | taskingEnable => exact taskingEnable_stepped h hl.1 hl.2.1 hl.2.2
  | yield => exact yield_stepped h hl
  | taskBlock q reason => exact taskBlock_stepped h hl.1.1 hl.1.2 hl.2.1 hl.2.2
  | taskUnblockNext q => exact taskUnblockNext_stepped h hl
  | taskSleepUntil seen target => exact taskSleepUntil_stepped h seen target hl.1 hl.2
  | taskSleepMiliseconds time => exact taskSleepMiliseconds_stepped h time hl.1 hl.2
  | semaphoreAcquire i => exact semaphoreAcquire_stepped h i hl.1 hl.2
  | semaphoreRelease i => exact semaphoreRelease_stepped h i
  | taskExit => exact taskExit_stepped h hl.1 hl.2
  | tick => exact tick_stepped h hl
  | idleWake => exact idleWake_stepped h hl.1 hl.2

end Operations

/-! ## Whole runs -/

section Whole

variable {s : Sched} {L : QueuePtr → List TaskId} {c : Cpu}

theorem Steady.task_eq (h : Steady s L c) : c.task = s.current := by
  cases c with
  | boot => exact h.cpu.2.1.symm
  | run t => exact h.cpu.2.1.symm
  | idle t => exact h.cpu.2.1.symm

/-- The task that runs after an operation ran before it, or has got the processor with the scheduler unlocked. -/
theorem Stepped.current_eq {op : SchedOp} {s' : Sched} {L' : QueuePtr → List TaskId} {c' : Cpu} {t : TaskId}
    (hs : Stepped s L c op s' L' c') (h : Sound s L c) (ht : s'.current = some t) :
    s.current = some t ∧ op ≠ .tick ∨ s'.lockCount = 0 := by
  rcases hs.cpu with ⟨rfl, hop⟩ | hcount
  · refine .inl ⟨?_, hop⟩
    rw [← h.task_eq, hs.sound.task_eq, ht]
  · obtain ⟨u, rfl, -⟩ := hs.sound.eq_run (by simp [ht])
    exact .inr hcount

/-- Nothing has happened yet. -/
theorem boot_sound (counts : Nat → Word) : Sound (boot counts) (fun _ => []) .boot where
  repr := ⟨fun _ => rfl, fun _ => rfl, fun _ => trivial, fun _ => List.nodup_nil, fun _ _ _ h => absurd h (by simp),
    trivial, List.nodup_nil, fun _ _ h => absurd h (by simp), fun _ _ _ => rfl⟩
  placed t := .gone (by simp) (by simp [Cpu.task]) (by simp [boot])
  cpu := ⟨rfl, rfl, rfl⟩
  base := Nat.zero_le _
  ints h := absurd h (by simp [boot])
  postponed _ := rfl
  boot _ := ⟨rfl, fun _ _ => rfl⟩
  idle t h := absurd h (by simp)
  spin _ := rfl

/-- The tasks of a run are those it has added. -/
theorem Stepped.mem_tasks {op : SchedOp} {s' : Sched} {L' : QueuePtr → List TaskId} {c' : Cpu} {ops : List SchedOp}
    (h : Stepped s L c op s' L' c') (hs : ∀ t, t ∈ s.tasks ↔ .taskAdd t ∈ ops) (t : TaskId) :
    t ∈ s'.tasks ↔ .taskAdd t ∈ ops ++ [op] := by
  rw [h.tasks, List.mem_append, List.mem_singleton, ← hs]
  cases op <;> simp [opTasks, or_comm]

/-- **Every run conserves its tasks.** All its calls return, and in the state it ends in the queues are lists, every
task it has added is at exactly one place with the state that fits, and a terminated task is in no queue. -/
theorem sched_runs_conserve_tasks (counts : Nat → Word) (ops : List SchedOp)
    (h : StepsMeet schedStep Legal (boot counts) ops) : ∃ s L, runSteps schedStep (boot counts) ops = .ok s ∧
      Represents s.links L [] ∧ (∀ t, t ∈ s.tasks ↔ .taskAdd t ∈ ops) ∧
      (∀ t, Placed s.state s.tasks L s.current t) ∧ ∀ t, s.state t = .terminated → ∀ q, t ∉ L q := by
  obtain ⟨s, hrun, ⟨L, c, hsound⟩, htasks⟩ := runSteps_inv
    (I := fun done s => (∃ L c, Sound s L c) ∧ ∀ t, t ∈ s.tasks ↔ SchedOp.taskAdd t ∈ done)
    (fun done s op hI (hl : Legal s op) => by
      obtain ⟨⟨L, c, hsound⟩, htasks⟩ := hI
      obtain ⟨s', L', c', hstep, hs'⟩ := schedStep_spec hsound hl
      exact ⟨s', hstep, ⟨L', c', hs'.sound⟩, hs'.mem_tasks htasks⟩)
    ops [] ⟨⟨_, _, boot_sound counts⟩, by simp [boot]⟩ h
  have hplaced := hsound.placed
  rw [hsound.task_eq] at hplaced
  refine ⟨s, L, hrun, hsound.repr, htasks, hplaced, fun t ht q hq => ?_⟩
  exact ((hplaced t).of_mem hq).1.ne_terminated ht

end Whole

/-- Two tasks: one waits for a semaphore, the other sleeps while the processor idles, wakes up, releases the semaphore
and goes on after the first has ended. -/
def sleepRun : List SchedOp :=
  [.taskAdd 1, .taskAdd 2, .taskingEnable, .semaphoreAcquire 0, .taskSleepUntil 0 2, .tick, .tick, .idleWake,
    .semaphoreRelease 0, .schedulerLock, .taskExit]

theorem sleepRun_legal : StepsMeet schedStep Legal (boot fun _ => 0#32) sleepRun := by
  apply stepsMeet_cons (by simp [Legal, boot]) rfl
  apply stepsMeet_cons (show 2 ∉ [1] by decide) rfl
  refine stepsMeet_cons ⟨rfl, rfl, by decide⟩ rfl ?_
  refine stepsMeet_cons ⟨by decide, rfl⟩ rfl ?_
  refine stepsMeet_cons ⟨by decide, rfl⟩ rfl ?_
  refine stepsMeet_cons rfl rfl ?_
  refine stepsMeet_cons rfl rfl ?_
  refine stepsMeet_cons ⟨by decide, rfl⟩ rfl ?_
  apply stepsMeet_cons trivial rfl
  apply stepsMeet_cons trivial rfl
  exact stepsMeet_cons ⟨by decide, rfl⟩ rfl trivial

theorem sleepRun_conserves_tasks : ∃ s L, runSteps schedStep (boot fun _ => 0#32) sleepRun = .ok s ∧
    Represents s.links L [] ∧ (∀ t, t ∈ s.tasks ↔ .taskAdd t ∈ sleepRun) ∧
    (∀ t, Placed s.state s.tasks L s.current t) ∧ ∀ t, s.state t = .terminated → ∀ q, t ∉ L q :=
  sched_runs_conserve_tasks _ _ sleepRun_legal

example : ∃ s, runSteps schedStep (boot fun _ => 0#32) sleepRun = .ok s ∧ s.current = some 2 ∧
    s.state 1 = .terminated :=
  ⟨_, rfl, rfl, rfl⟩

end Myunix.Task
