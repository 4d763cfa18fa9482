import Myunix.Task.Sections

/-!
# Sleeping tasks wake up in time

`scheduler_wakeup` takes the wait queue apart and puts every task back into the wait queue or behind the ready queue.
`wakeupSection` is that part of it, up to its call of `schedule`. Outside of it nothing changes `wait_target` but a task
that goes to sleep itself (`schedStep_clock`). So a task that has called `task_sleep_until` keeps waiting until the timer
has reached its target, and the first tick at or after it makes the task ready (`scheduler_wakes_in_time`).
-/

namespace Myunix.Task

open Lib

/-! ## What leaves the clock alone -/

/-- The timer and the wake-up times are unchanged. -/
structure SameClock (s s' : Sched) : Prop where
  ticks : s'.timerTicks = s.timerTicks
  targets : s'.waitTarget = s.waitTarget

theorem SameClock.refl (s : Sched) : SameClock s s := ⟨rfl, rfl⟩

theorem SameClock.trans {s₁ s₂ s₃ : Sched} (h : SameClock s₁ s₂) (h' : SameClock s₂ s₃) : SameClock s₁ s₃ :=
  ⟨h'.ticks.trans h.ticks, h'.targets.trans h.targets⟩

section Clock

variable {s a s' : Sched} {q : QueuePtr} {t n : TaskId} {r : Bool × Sched}

theorem taskQueue_clock (h : taskQueue s q t = .ok s') : SameClock s s' := by
  simp only [taskQueue, bind_eq_ok, assert_eq_ok] at h
  obtain ⟨-, -, -, -, h⟩ := h
  split at h
  · simp only [bind_eq_ok, pure_eq_ok] at h
    obtain ⟨-, -, rfl⟩ := h
    exact ⟨rfl, rfl⟩
  · split at h
    · simp at h
    · rw [pure_eq_ok] at h
      subst h
      exact ⟨rfl, rfl⟩

theorem taskDequeue_clock {o : Option TaskId} (h : taskDequeue s q = .ok (o, s')) : SameClock s s' := by
  simp only [taskDequeue, bind_eq_ok, assert_eq_ok] at h
  obtain ⟨-, -, h⟩ := h
  split at h
  · simp only [pure_eq_ok, Prod.mk.injEq] at h
    obtain ⟨-, rfl⟩ := h
    exact .refl s
  · split at h
    · simp only [bind_eq_ok, pure_eq_ok, Prod.mk.injEq] at h
      obtain ⟨-, -, -, rfl⟩ := h
      exact ⟨rfl, rfl⟩
    · simp only [pure_eq_ok, Prod.mk.injEq] at h
      obtain ⟨-, rfl⟩ := h
      exact ⟨rfl, rfl⟩

theorem schedule_clock (h : schedule s = .ok s') : SameClock s s' := by
  simp only [schedule, bind_eq_ok, pure_eq_ok] at h
  obtain ⟨-, -, -, -, -, -, rfl⟩ := h
  exact ⟨rfl, rfl⟩

theorem schedulerLock_clock (h : schedulerLock s = .ok s') : SameClock s s' := by
  rw [schedulerLock_eq h]
  exact ⟨rfl, rfl⟩

theorem unlockTail_clock (s : Sched) : SameClock s (unlockTail s) := by
  rw [unlockTail]
  split <;> exact ⟨rfl, rfl⟩

theorem afterSchedule_clock (h : SameClock s r.2) : SameClock s (afterSchedule r) := by
  rw [afterSchedule]
  split
  · exact h.trans (unlockTail_clock _)
  · exact h

theorem scheduleSwitch_clock (h : scheduleSwitch s t n = .ok r) : SameClock s r.2 := by
  rw [scheduleSwitch] at h
  split at h
  · simp only [bind_eq_ok] at h
    obtain ⟨-, -, h⟩ := h
    split at h
    · simp only [bind_eq_ok] at h
      obtain ⟨a, ha, r₁, hr₁, h⟩ := h
      obtain ⟨-, rfl⟩ := switchTask_eq hr₁
      rw [scheduleEnd_eq h]
      have hqueue := taskQueue_clock ha
      exact ⟨hqueue.ticks, hqueue.targets⟩
    · split at h
      · simp only [bind_eq_ok] at h
        obtain ⟨b, -, h⟩ := h
        rw [scheduleEnd_eq h]
        exact ⟨rfl, rfl⟩
      · simp only [bind_eq_ok] at h
        obtain ⟨r₁, hr₁, h⟩ := h
        obtain ⟨-, rfl⟩ := switchTask_eq hr₁
        rw [scheduleEnd_eq h]
        exact ⟨rfl, rfl⟩
  · rw [scheduleEnd_eq h]
    exact .refl s

theorem rawSchedule_clock (h : rawSchedule s = .ok r) : SameClock s (afterSchedule r) := by
  simp only [rawSchedule, bind_eq_ok, assert_eq_ok] at h
  obtain ⟨-, -, -, -, t, -, ⟨o, a⟩, ha, h⟩ := h
  have hdequeue := taskDequeue_clock ha
  apply afterSchedule_clock
  cases o with
  | some n => exact hdequeue.trans (scheduleSwitch_clock h)
  | none =>
    simp only at h
    split at h
    · exact hdequeue.trans (scheduleSwitch_clock h)
    · rw [pure_eq_ok] at h
      subst h
      exact ⟨hdequeue.ticks, hdequeue.targets⟩

theorem idleWake_clock (h : idleWake s = .ok s') : SameClock s s' := by
  rw [idleWake] at h
  split at h
  · simp at h
  split at h
  · rw [pure_eq_ok] at h
    subst h
    exact ⟨rfl, rfl⟩
  simp only [bind_eq_ok, assert_eq_ok] at h
  obtain ⟨-, -, ⟨o, a⟩, ha, h⟩ := h
  have hdequeue := taskDequeue_clock ha
  have hstart : SameClock s a := ⟨hdequeue.ticks, hdequeue.targets⟩
  cases o with
  | none => simp at h
  | some n =>
    simp only at h
    split at h
    · simp only [bind_eq_ok, pure_eq_ok] at h
      obtain ⟨-, -, r, hr, rfl⟩ := h
      have hswitch := scheduleSwitch_clock hr
      exact afterSchedule_clock (hstart.trans ⟨hswitch.ticks, hswitch.targets⟩)
    · simp only [bind_eq_ok, pure_eq_ok] at h
      obtain ⟨r, hr, rfl⟩ := h
      exact afterSchedule_clock (hstart.trans (scheduleSwitch_clock hr))

theorem schedulerUnlock_clock (h : schedulerUnlock s = .ok s') : SameClock s s' := by
  simp only [schedulerUnlock, bind_eq_ok] at h
  obtain ⟨-, -, -, -, h⟩ := h
  split at h
  · split at h
    · simp only [bind_eq_ok, pure_eq_ok] at h
      obtain ⟨r, hr, rfl⟩ := h
      have hraw := rawSchedule_clock hr
      exact ⟨hraw.ticks, hraw.targets⟩
    · rw [pure_eq_ok] at h
      subst h
      have htail := unlockTail_clock { s with lockCount := s.lockCount - 1 }
      exact ⟨htail.ticks, htail.targets⟩
  · rw [pure_eq_ok] at h
    subst h
    exact ⟨rfl, rfl⟩

/-- The end of a section that has asked for a switch. -/
theorem schedule_unlock_clock (h : (schedule s >>= schedulerUnlock) = .ok s') : SameClock s s' := by
  rw [bind_eq_ok] at h
  obtain ⟨a, ha, h⟩ := h
  exact (schedule_clock ha).trans (schedulerUnlock_clock h)

theorem rawTaskBlock_clock {reason : TaskState} (h : rawTaskBlock s q t reason = .ok s') : SameClock s s' := by
  simp only [rawTaskBlock, bind_eq_ok, pure_eq_ok] at h
  obtain ⟨-, -, -, -, a, ha, rfl⟩ := h
  have hqueue := taskQueue_clock ha
  exact ⟨hqueue.ticks, hqueue.targets⟩

theorem rawTaskUnblock_clock (h : rawTaskUnblock s t = .ok s') : SameClock s s' := by
  simp only [rawTaskUnblock, bind_eq_ok, pure_eq_ok] at h
  obtain ⟨-, -, -, -, a, ha, rfl⟩ := h
  have hqueue := taskQueue_clock ha
  exact ⟨hqueue.ticks, hqueue.targets⟩

theorem taskUnblockNext_clock (h : taskUnblockNext s q = .ok s') : SameClock s s' := by
  simp only [taskUnblockNext, bind_eq_ok] at h
  obtain ⟨a, ha, ⟨o, b⟩, hb, h⟩ := h
  have hstart := (schedulerLock_clock ha).trans (taskDequeue_clock hb)
  cases o with
  | none => exact hstart.trans (schedulerUnlock_clock h)
  | some t =>
    simp only [bind_eq_ok] at h
    obtain ⟨c, hc, d, hd, h⟩ := h
    exact ((hstart.trans (rawTaskUnblock_clock hc)).trans (schedule_clock hd)).trans (schedulerUnlock_clock h)

theorem taskBlock_clock {reason : TaskState} (h : taskBlock s q reason = .ok s') : SameClock s s' := by
  simp only [taskBlock, bind_eq_ok] at h
  obtain ⟨a, ha, -, -, t, -, b, hb, c, hc, h⟩ := h
  exact (((schedulerLock_clock ha).trans (rawTaskBlock_clock hb)).trans (schedule_clock hc)).trans
    (schedulerUnlock_clock h)

theorem spinLock_clock {i : Nat} (h : spinLock s i = .ok s') : SameClock s s' := by
  simp only [spinLock, bind_eq_ok, pure_eq_ok] at h
  obtain ⟨a, ha, -, -, rfl⟩ := h
  have hlock := schedulerLock_clock ha
  exact ⟨hlock.ticks, hlock.targets⟩

theorem spinUnlock_clock {i : Nat} (h : spinUnlock s i = .ok s') : SameClock s s' := by
  simp only [spinUnlock, bind_eq_ok] at h
  obtain ⟨-, -, h⟩ := h
  have hunlock := schedulerUnlock_clock h
  exact ⟨hunlock.ticks, hunlock.targets⟩

theorem semaphoreAcquire_clock {i : Nat} (h : semaphoreAcquire s i = .ok s') : SameClock s s' := by
  simp only [semaphoreAcquire, bind_eq_ok] at h
  obtain ⟨a, ha, b, hb, -, -, h⟩ := h
  have hsection : SameClock a b := by
    rw [acquireSection] at hb
    split at hb
    · rw [pure_eq_ok] at hb
      subst hb
      exact ⟨rfl, rfl⟩
    · simp only [bind_eq_ok] at hb
      obtain ⟨c, hc, t, -, d, hd, e, he, hb⟩ := hb
      exact (((schedulerLock_clock hc).trans (rawTaskBlock_clock hd)).trans (schedule_clock he)).trans
        (schedulerUnlock_clock hb)
  exact ((spinLock_clock ha).trans hsection).trans (spinUnlock_clock h)

theorem semaphoreRelease_clock {i : Nat} (h : semaphoreRelease s i = .ok s') : SameClock s s' := by
  simp only [semaphoreRelease, bind_eq_ok] at h
  obtain ⟨a, ha, b, hb, h⟩ := h
  have hsection : SameClock a b := by
    rw [releaseSection] at hb
    split at hb
    · simp only [bind_eq_ok] at hb
      obtain ⟨c, hc, d, hd, hb⟩ := hb
      exact ((schedulerLock_clock hc).trans (taskUnblockNext_clock hd)).trans (schedulerUnlock_clock hb)
    · rw [pure_eq_ok] at hb
      subst hb
      exact ⟨rfl, rfl⟩
  exact ((spinLock_clock ha).trans hsection).trans (spinUnlock_clock h)

theorem taskAdd_clock (h : taskAdd s t = .ok s') : SameClock s s' := by
  simp only [taskAdd, bind_eq_ok] at h
  obtain ⟨a, ha, b, hb, h⟩ := h
  have hlock := schedulerLock_clock ha
  have hstart : SameClock s a := ⟨hlock.ticks, hlock.targets⟩
  exact (hstart.trans (taskQueue_clock hb)).trans (schedulerUnlock_clock h)

theorem taskExit_clock (h : taskExit s = .ok s') : SameClock s s' := by
  simp only [taskExit, bind_eq_ok, pure_eq_ok] at h
  obtain ⟨-, -, t, -, -, -, -, -, r, hr, rfl⟩ := h
  have hraw := rawSchedule_clock hr
  exact ⟨hraw.ticks, hraw.targets⟩

theorem taskingEnable_clock (h : taskingEnable s = .ok s') : SameClock s s' := by
  simp only [taskingEnable, bind_eq_ok] at h
  obtain ⟨-, -, -, -, ⟨o, a⟩, ha, h⟩ := h
  have hdequeue := taskDequeue_clock ha
  cases o with
  | none => simp at h
  | some t =>
    simp only [bind_eq_ok, pure_eq_ok] at h
    obtain ⟨-, -, -, -, b, -, rfl⟩ := h
    exact afterSchedule_clock ⟨hdequeue.ticks, hdequeue.targets⟩

/-- The timer is unchanged, and every wake-up time but that of the task `o`. -/
def ClockBut (o : Option TaskId) (s s' : Sched) : Prop :=
  s'.timerTicks = s.timerTicks ∧ ∀ t, o ≠ some t → s'.waitTarget t = s.waitTarget t

theorem SameClock.but (h : SameClock s s') (o : Option TaskId) : ClockBut o s s' :=
  ⟨h.ticks, fun t _ => by rw [h.targets]⟩

theorem taskSleepUntil_clock {seen target : BitVec 64} (h : taskSleepUntil s seen target = .ok s') :
    ClockBut s.current s s' ∧ (¬ target ≤ seen → ∀ t, s.current = some t → s'.waitTarget t = target) := by
  rw [taskSleepUntil] at h
  split at h
  · rename_i hle
    rw [pure_eq_ok] at h
    subst h
    exact ⟨(SameClock.refl s).but _, fun hlater => absurd hle hlater⟩
  simp only [bind_eq_ok] at h
  obtain ⟨a, ha, -, -, t, ht, -, -, b, hb, c, hc, h⟩ := h
  have hcurrent : s.current = some t := by
    rw [← currentTask_eq ht, schedulerLock_eq ha]
  have hend := ((taskQueue_clock hb).trans (schedule_clock hc)).trans (schedulerUnlock_clock h)
  have hlock := schedulerLock_clock ha
  have htarget : s'.waitTarget = Function.update s.waitTarget t target := by rw [hend.targets, hlock.targets]
  refine ⟨⟨hend.ticks.trans hlock.ticks, fun u hu => ?_⟩, fun _ u hu => ?_⟩
  · have hne : u ≠ t := by
      rintro rfl
      exact hu hcurrent
    rw [htarget, Function.update_of_ne hne]
  · rw [hcurrent, Option.some.injEq] at hu
    rw [htarget, ← hu, Function.update_self]

theorem taskSleepMiliseconds_clock {time : BitVec 64} (h : taskSleepMiliseconds s time = .ok s') :
    ClockBut s.current s s' := by
  simp only [taskSleepMiliseconds, bind_eq_ok] at h
  obtain ⟨a, ha, -, -, t, ht, b, hb, c, hc, h⟩ := h
  have hcurrent : s.current = some t := by
    rw [← currentTask_eq ht, schedulerLock_eq ha]
  have hend := ((rawTaskBlock_clock hb).trans (schedule_clock hc)).trans (schedulerUnlock_clock h)
  have hlock := schedulerLock_clock ha
  refine ⟨hend.ticks.trans hlock.ticks, fun u hu => ?_⟩
  have hne : u ≠ t := by
    rintro rfl
    exact hu hcurrent
  have htarget : s'.waitTarget = Function.update s.waitTarget t (a.timerTicks + time) := by
    rw [hend.targets, hlock.targets]
  rw [htarget, Function.update_of_ne hne]

/-- **The clock**: apart from the ticks, only a task that goes to sleep changes a wake-up time, its own. -/
theorem schedStep_clock {op : SchedOp} (h : schedStep s op = .ok s') (hop : op ≠ .tick) :
    ClockBut s.current s s' := by
  cases op with
  | flags b =>
    rw [schedStep, Except.ok.injEq] at h
    subst h
    exact SameClock.but ⟨rfl, rfl⟩ _
  | schedulerLock => exact (schedulerLock_clock h).but _
  | schedulerUnlock => exact (schedulerUnlock_clock h).but _
  | taskAdd t => exact (taskAdd_clock h).but _
  | taskingEnable => exact (taskingEnable_clock h).but _
  | yield =>
    simp only [schedStep, yield, bind_eq_ok] at h
    obtain ⟨a, ha, b, hb, h⟩ := h
    exact (((schedulerLock_clock ha).trans (schedule_clock hb)).trans (schedulerUnlock_clock h)).but _
  | taskBlock q reason => exact (taskBlock_clock h).but _
  | taskUnblockNext q => exact (taskUnblockNext_clock h).but _
  | taskSleepUntil seen target => exact (taskSleepUntil_clock h).1
  | taskSleepMiliseconds time => exact taskSleepMiliseconds_clock h
  | semaphoreAcquire i => exact (semaphoreAcquire_clock h).but _
  | semaphoreRelease i => exact (semaphoreRelease_clock h).but _
  | taskExit => exact (taskExit_clock h).but _
  | tick => exact absurd rfl hop
  | idleWake => exact (idleWake_clock h).but _

end Clock

/-! ## The wait queue is taken apart -/

/-- `scheduler_wakeup` up to its call of `schedule`. -/
def wakeupSection (s : Sched) : Kernel Sched :=
  if s.schedulerReady = false then return s
  else do
    let s ← schedulerLock s
    let task := (s.links.queues .waitQueue).first
    let s := { s with links := s.links.setQueue .waitQueue ⟨none, none⟩ }
    wakeupLoop s.tasks.length task s

section Section

variable {s : Sched} {L : QueuePtr → List TaskId} {c : Cpu}

theorem schedulerWakeup_eq (hready : s.schedulerReady = true) :
    schedulerWakeup s = wakeupSection s >>= fun s => schedule s >>= schedulerUnlock := by
  have hne : ¬ s.schedulerReady = false := by simp [hready]
  rw [schedulerWakeup, if_neg hne, wakeupSection, if_neg hne]
  simp only [bind_assoc]

/-- Well-formed queues: each is a list, and the tasks that wait have been added while the scheduler runs. -/
structure QueuesWell (s : Sched) (L : QueuePtr → List TaskId) : Prop where
  repr : Represents s.links L []
  added : ∀ t ∈ L .waitQueue, t ∈ s.tasks
  running : s.schedulerReady = true ∨ L .waitQueue = []
  postponed : s.lockCount = 0 → s.postponed = false

theorem Sound.queuesWell (h : Sound s L c) : QueuesWell s L := by
  refine ⟨h.repr, fun t ht => ((h.placed t).of_mem ht).2.2.1, ?_, h.postponed⟩
  cases hready : s.schedulerReady with
  | true => exact Or.inl rfl
  | false =>
    apply Or.inr
    cases c with
    | boot => exact (h.boot rfl).2 _ (by simp)
    | run t => exact absurd hready (by simp [h.cpu.1])
    | idle t => exact absurd hready (by simp [h.cpu.1])

/-- The queues after the section: the tasks that are due are behind the ready queue, the others wait on. -/
theorem wakeupSection_woken (h : QueuesWell s L) : ∃ s', wakeupSection s = .ok s' ∧
    Woken s (Function.update L .waitQueue []) (L .waitQueue) s' ∧ s'.timerTicks = s.timerTicks := by
  by_cases hready : s.schedulerReady = false
  · have hempty : L .waitQueue = [] := h.running.resolve_left (by simp [hready])
    refine ⟨s, ?_, ⟨?_, fun t => ?_, fun t => ?_⟩, rfl⟩
    · rw [wakeupSection, if_pos hready]
      rfl
    · have hsame : Function.update L .waitQueue [] = L := by rw [← hempty, Function.update_eq_self]
      rw [hsame, hempty, wokenLists, List.filter_nil, List.filter_nil, List.append_nil, List.append_nil,
        Function.update_eq_self, Function.update_eq_self]
      exact h.repr
    · simp [hempty]
    · simp [hempty]
  obtain ⟨e, hlock⟩ := schedulerLock_ok h.postponed
  have hlen : (L .waitQueue).length ≤ s.tasks.length :=
    (h.repr.nodup .waitQueue).length_le_of_subset fun t ht => h.added t ht
  obtain ⟨links, state, w, l, hloop, hwoken⟩ := wakeupLoop_woken (s := { s with
      interrupts := false, enableInts := e, lockCount := s.lockCount + 1,
      links := s.links.setQueue .waitQueue ⟨none, none⟩ }) hlen (h.repr.detach .waitQueue) rfl (Nat.succ_ne_zero _)
  refine ⟨_, ?_, ⟨hwoken.repr, hwoken.state, hwoken.target⟩, rfl⟩
  rw [wakeupSection, if_neg hready, hlock, ok_bind]
  simp only [h.repr.first]
  exact hloop

/-- The tasks that are due have moved behind the ready queue. -/
def movedLists (s : Sched) (L : QueuePtr → List TaskId) : QueuePtr → List TaskId :=
  Function.update (Function.update L .readyQueue (L .readyQueue ++ (L .waitQueue).filter (due s))) .waitQueue
    ((L .waitQueue).filter fun t => ! due s t)

theorem wokenLists_emptied (s : Sched) (L : QueuePtr → List TaskId) :
    wokenLists s (Function.update L .waitQueue []) (L .waitQueue) = movedLists s L := by
  rw [wokenLists, Function.update_self, List.nil_append, Function.update_of_ne (by simp),
    Function.update_comm (show QueuePtr.waitQueue ≠ .readyQueue by simp), Function.update_idem, movedLists]

/-- A timer interrupt: the section, and a switch that leaves the clock alone. -/
theorem tick_parts {s' : Sched} (h : Sound s L c) (hready : s.schedulerReady = true) (hrun : irq0Handler s = .ok s') :
    ∃ m, wakeupSection { s with timerTicks := s.timerTicks + 1 } = .ok m ∧
      Woken { s with timerTicks := s.timerTicks + 1 } (Function.update L .waitQueue []) (L .waitQueue) m ∧
      SameClock m s' := by
  have hwell := h.queuesWell
  obtain ⟨m, hm, hwoken, -⟩ := wakeupSection_woken (s := { s with timerTicks := s.timerTicks + 1 }) (L := L)
    ⟨hwell.repr, hwell.added, hwell.running, hwell.postponed⟩
  rw [irq0Handler, schedulerWakeup_eq (s := { s with timerTicks := s.timerTicks + 1 }) hready, hm, ok_bind] at hrun
  exact ⟨m, hm, hwoken, schedule_unlock_clock hrun⟩

end Section

/-! ## Sleepers -/

/-- A legal operation of the kernel: nobody calls `task_unblock_next` on the wait queue. -/
def KernelLegal (s : Sched) (op : SchedOp) : Prop := Legal s op ∧ op ≠ .taskUnblockNext .waitQueue

section Sleepers

variable {s s' : Sched} {L : QueuePtr → List TaskId} {c : Cpu} {t : TaskId} {target : BitVec 64}

/-- Only the timer takes a task off the wait queue. -/
theorem mem_opLists_wait {op : SchedOp} (ht : t ∈ L .waitQueue) (hnext : op ≠ .taskUnblockNext .waitQueue)
    (htick : op = .tick → ¬ s.waitTarget t ≤ s.timerTicks + 1) : t ∈ opLists s L op .waitQueue := by
  cases op with
  | taskBlock q reason =>
    rcases eq_or_ne .waitQueue q with rfl | hq
    · rw [opLists, Function.update_self]
      exact List.mem_append_left _ ht
    · rw [opLists, Function.update_of_ne hq]
      exact ht
  | taskUnblockNext q =>
    have hq : .waitQueue ≠ q := by
      rintro rfl
      exact hnext rfl
    rw [opLists, Function.update_of_ne hq]
    exact ht
  | taskSleepUntil seen later =>
    rw [opLists]
    split
    · exact ht
    · rw [Function.update_self]
      exact List.mem_append_left _ ht
  | taskSleepMiliseconds time =>
    rw [opLists, Function.update_self]
    exact List.mem_append_left _ ht
  | semaphoreAcquire i =>
    rw [opLists]
    split
    · exact ht
    · rw [Function.update_of_ne (by simp)]
      exact ht
  | semaphoreRelease i =>
    rw [opLists, Function.update_of_ne (by simp)]
    exact ht
  | tick =>
    rw [opLists]
    split
    · exact ht
    · rw [Function.update_self]
      exact List.mem_filter.2 ⟨ht, by simpa [asleep] using htick rfl⟩
  | flags b => exact ht
  | schedulerLock => exact ht
  | schedulerUnlock => exact ht
  | taskAdd u => exact ht
  | taskingEnable => exact ht
  | yield => exact ht
  | taskExit => exact ht
  | idleWake => exact ht

/-- A task that waits does not run. -/
theorem Sound.not_current (h : Sound s L c) {q : QueuePtr} (ht : t ∈ L q) : s.current ≠ some t := by
  rw [← h.task_eq]
  exact ((h.placed t).of_mem ht).2.1

/-- The scheduler runs while a task waits. -/
theorem Sound.ready_of_waiting (h : Sound s L c) (ht : t ∈ L .waitQueue) : s.schedulerReady = true := by
  apply h.queuesWell.running.resolve_right
  intro hempty
  rw [hempty] at ht
  cases ht

/-- The sleeper keeps its place in the wait queue, and its wake-up time. -/
structure Sleeping (t : TaskId) (target : BitVec 64) (s : Sched) : Prop where
  waits : ∃ L c, Sound s L c ∧ t ∈ L .waitQueue
  target : s.waitTarget t = target

theorem Sleeping.parked (h : Sleeping t target s) : Parked (s.state t) := by
  obtain ⟨L, c, hsound, ht⟩ := h.waits
  exact (fits_parked (by simp)).1 ((hsound.placed t).of_mem ht).1

/-- **Not before its time**: an operation that is no due tick leaves the sleeper asleep. -/
theorem Sleeping.step {op : SchedOp} (h : Sleeping t target s) (hlegal : KernelLegal s op)
    (htick : op = .tick → ¬ target ≤ s.timerTicks + 1) : ∃ s', schedStep s op = .ok s' ∧ Sleeping t target s' := by
  obtain ⟨L, c, hsound, ht⟩ := h.waits
  obtain ⟨s', L', c', hstep, hs'⟩ := schedStep_spec hsound hlegal.1
  have hmem : t ∈ L' .waitQueue := by
    rw [hs'.lists _ (by simp)]
    apply mem_opLists_wait ht hlegal.2
    rw [h.target]
    exact htick
  refine ⟨s', hstep, ⟨L', c', hs'.sound, hmem⟩, ?_⟩
  by_cases hop : op = .tick
  · subst hop
    obtain ⟨m, -, hwoken, hclock⟩ := tick_parts hsound (hsound.ready_of_waiting ht) hstep
    have hlate : ¬ s.waitTarget t ≤ s.timerTicks + 1 := by
      rw [h.target]
      exact htick rfl
    rw [hclock.targets, hwoken.target, if_neg fun hd => hlate (of_decide_eq_true hd.2)]
    exact h.target
  · rw [(schedStep_clock hstep hop).2 t (hsound.not_current ht)]
    exact h.target

/-- **In time**: the tick that reaches the wake-up time makes the sleeper ready. -/
theorem Sleeping.wakes (h : Sleeping t target s) (hlegal : Legal s .tick) (hdue : target ≤ s.timerTicks + 1) :
    ∃ m s', wakeupSection { s with timerTicks := s.timerTicks + 1 } = .ok m ∧ m.state t = .ready ∧
      irq0Handler s = .ok s' ∧ (s'.state t = .ready ∨ s'.state t = .running) := by
  obtain ⟨L, c, hsound, ht⟩ := h.waits
  obtain ⟨s', L', c', hstep, hs'⟩ := schedStep_spec hsound hlegal
  have hready := hsound.ready_of_waiting ht
  obtain ⟨m, hm, hwoken, -⟩ := tick_parts hsound hready hstep
  have hle : s.waitTarget t ≤ s.timerTicks + 1 := by
    rw [h.target]
    exact hdue
  refine ⟨m, s', hm, ?_, hstep, ?_⟩
  · rw [hwoken.state, if_pos ⟨ht, decide_eq_true hle⟩]
  obtain ⟨hfits, -, hadd, hone⟩ := (hsound.placed t).of_mem ht
  cases hs'.sound.placed t with
  | running hrun hstate hnone hadd' => exact Or.inr hstate
  | queued q hmem hone' hfits' hrun hadd' =>
    rcases eq_or_ne q .readyQueue with rfl | hq
    · exact Or.inl (fits_ready.1 hfits')
    rw [hs'.lists q hq, opLists, if_neg (by simp [hready])] at hmem
    rcases eq_or_ne q .waitQueue with rfl | hw
    · rw [Function.update_self, List.mem_filter, asleep, decide_eq_true hle] at hmem
      cases hmem.2
    · rw [Function.update_of_ne hw] at hmem
      exact absurd (hone q hmem) hw
  | gone hnone hrun hend =>
    have hterm := (hs'.terminated t hadd).1 (hend (by rw [hs'.tasks]; exact hadd))
    exact absurd (hterm.resolve_right (by simp)) hfits.ne_terminated

/-- The running task goes to sleep. -/
theorem taskSleepUntil_sleeping {seen : BitVec 64} (h : Sound s L c) (hcurrent : s.current = some t)
    (hcount : s.lockCount = 0) (hlater : ¬ target ≤ seen) :
    ∃ s', taskSleepUntil s seen target = .ok s' ∧ Sleeping t target s' := by
  obtain ⟨s', L', c', hstep, hs'⟩ := taskSleepUntil_stepped h seen target (by simp [hcurrent]) hcount
  refine ⟨s', hstep, ⟨L', c', hs'.sound, ?_⟩, (taskSleepUntil_clock hstep).2 hlater t hcurrent⟩
  rw [hs'.lists _ (by simp), opLists, if_neg hlater, Function.update_self, hcurrent]
  exact List.mem_append_right _ (by simp)

/-- A run in which every tick leaves the timer below the wake-up time. -/
theorem Sleeping.run {ops : List SchedOp} (h : Sleeping t target s)
    (hops : StepsMeet schedStep (fun s op => KernelLegal s op ∧ (op = .tick → ¬ target ≤ s.timerTicks + 1)) s ops) :
    ∃ s', runSteps schedStep s ops = .ok s' ∧ Sleeping t target s' :=
  runSteps_inv (I := fun _ s => Sleeping t target s) (fun _ _ _ hs hok => hs.step hok.1 hok.2) ops [] h hops

end Sleepers

/-- **Sleeping and waking.** Up to its call of `schedule`, `scheduler_wakeup` moves the tasks that are due to the end of
the ready queue, in order and with state ready, leaves the others in the wait queue in their order, and loses or
doubles none. In every run, a task that has called `task_sleep_until` with a later target waits as long as no tick has
brought the timer to the target, and the first tick that does makes it ready. -/
theorem scheduler_wakes_in_time :
    (∀ (s : Sched) (L : QueuePtr → List TaskId), QueuesWell s L → ∃ s', wakeupSection s = .ok s' ∧
      Represents s'.links (movedLists s L) [] ∧
      (∀ t, s'.state t = if t ∈ L .waitQueue ∧ s.waitTarget t ≤ s.timerTicks then .ready else s.state t) ∧
      (movedLists s L .readyQueue ++ movedLists s L .waitQueue).Perm (L .readyQueue ++ L .waitQueue)) ∧
    ∀ (s : Sched) (L : QueuePtr → List TaskId) (c : Cpu) (t : TaskId) (seen target : BitVec 64), Sound s L c →
      s.current = some t → s.lockCount = 0 → ¬ target ≤ seen →
      ∃ s₁, taskSleepUntil s seen target = .ok s₁ ∧ ∀ ops : List SchedOp,
        StepsMeet schedStep (fun s op => KernelLegal s op ∧ (op = .tick → ¬ target ≤ s.timerTicks + 1)) s₁ ops →
        ∃ s₂, runSteps schedStep s₁ ops = .ok s₂ ∧ Parked (s₂.state t) ∧
          (KernelLegal s₂ .tick → target ≤ s₂.timerTicks + 1 →
            ∃ m s₃, wakeupSection { s₂ with timerTicks := s₂.timerTicks + 1 } = .ok m ∧ m.state t = .ready ∧
              irq0Handler s₂ = .ok s₃ ∧ (s₃.state t = .ready ∨ s₃.state t = .running)) := by
  constructor
  · intro s L hwell
    obtain ⟨s', hrun, hwoken, -⟩ := wakeupSection_woken hwell
    refine ⟨s', hrun, ?_, fun t => ?_, ?_⟩
    · rw [← wokenLists_emptied]
      exact hwoken.repr
    · rw [hwoken.state]
      simp only [due, decide_eq_true_eq]
    · rw [movedLists, Function.update_self, Function.update_of_ne (by simp), Function.update_self, List.append_assoc]
      exact (List.filter_append_perm _ _).append_left _
  · intro s L c t seen target hsound hcurrent hcount hlater
    obtain ⟨s₁, hsleep, hsleeping⟩ := taskSleepUntil_sleeping hsound hcurrent hcount hlater
    refine ⟨s₁, hsleep, fun ops hops => ?_⟩
    obtain ⟨s₂, hrun, hsleeping₂⟩ := hsleeping.run hops
    exact ⟨s₂, hrun, hsleeping₂.parked, fun hlegal hdue => hsleeping₂.wakes hlegal.1 hdue⟩

/-- Two tasks are added and the first one runs. -/
def startOps : List SchedOp := [.taskAdd 1, .taskAdd 2, .taskingEnable]

theorem startOps_legal : StepsMeet schedStep Legal (boot fun _ => 0#32) startOps := by
  apply stepsMeet_cons (by simp [Legal, boot]) rfl
  apply stepsMeet_cons (show 2 ∉ [1] by decide) rfl
  exact stepsMeet_cons ⟨rfl, rfl, by decide⟩ rfl trivial

theorem startOps_sound : ∃ s L c, runSteps schedStep (boot fun _ => 0#32) startOps = .ok s ∧ Sound s L c := by
  obtain ⟨s, hrun, L, c, hsound⟩ := runSteps_inv (I := fun _ s => ∃ L c, Sound s L c)
    (fun _ s op hI (hl : Legal s op) => by
      obtain ⟨L, c, hsound⟩ := hI
      obtain ⟨s', L', c', hstep, hs'⟩ := schedStep_spec hsound hl
      exact ⟨s', hstep, L', c', hs'.sound⟩)
    startOps [] ⟨_, _, boot_sound _⟩ startOps_legal
  exact ⟨s, L, c, hrun, hsound⟩

/-- The first task sleeps until tick 2: it waits after tick 1 and is ready after tick 2. -/
theorem scheduler_wakes_first : ∃ s s₁ s₂ m s₃, runSteps schedStep (boot fun _ => 0#32) startOps = .ok s ∧
    taskSleepUntil s 0 2 = .ok s₁ ∧ runSteps schedStep s₁ [.tick] = .ok s₂ ∧ Parked (s₂.state 1) ∧
    wakeupSection { s₂ with timerTicks := s₂.timerTicks + 1 } = .ok m ∧ m.state 1 = .ready ∧
    irq0Handler s₂ = .ok s₃ ∧ (s₃.state 1 = .ready ∨ s₃.state 1 = .running) := by
  obtain ⟨s, L, c, hrun, hsound⟩ := startOps_sound
  obtain rfl : _ = s := Except.ok.inj ((show runSteps schedStep (boot fun _ => 0#32) startOps = .ok _ from rfl).symm.trans
    hrun)
  obtain ⟨s₁, hsleep, hthen⟩ := scheduler_wakes_in_time.2 _ L c 1 0 2 hsound rfl rfl (by decide)
  obtain rfl : _ = s₁ := Except.ok.inj ((show taskSleepUntil _ 0 2 = .ok _ from rfl).symm.trans hsleep)
  obtain ⟨s₂, htick, hparked, hwakes⟩ := hthen [.tick] (stepsMeet_cons ⟨⟨rfl, by simp⟩, fun _ => by decide⟩ rfl trivial)
  obtain rfl : _ = s₂ := Except.ok.inj ((show runSteps schedStep _ [.tick] = .ok _ from rfl).symm.trans htick)
  obtain ⟨m, s₃, hm, hready, hirq, hend⟩ := hwakes ⟨rfl, by simp⟩ (by decide)
  exact ⟨_, _, _, m, s₃, hrun, hsleep, htick, hparked, hm, hready, hirq, hend⟩

end Myunix.Task
