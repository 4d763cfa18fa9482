import Myunix.Base
import Myunix.Lib.Queue

/-!
# The scheduler of `task.c`

One processor runs `current_task`. Every other live task sits in one queue: the ready queue, the wait queue of
sleeping tasks, or the queue of what it is blocked on. All queues are chained through the one field `next_task`.

A context switch leaves the caller inside `__schedule` and goes on in another task, either at its entry or where it
was left itself, which is inside the `scheduler_unlock` that called `__schedule`. A function of the model therefore
returns the state at the end of that `scheduler_unlock`, with `current` the task that runs on. With nothing to run
`__schedule` idles: `idle` holds the task whose `__schedule` that is, and interrupt handlers run until one of them
makes a task ready (`idleWake`).

Console output is left out, and `kcalloc` in `list_insert` is taken to succeed.
-/

namespace Myunix.Task

open Lib

/-- A `task_t *`. -/
abbrev TaskId := Nat

/-- `enum task_state`. -/
inductive TaskState
  | ready
  | blocked
  | running
  | terminated
  | waiting
  | blockedLock
deriving DecidableEq, Repr

/-- A `task_queue_t *`: the queues of `task.c`, and those inside processes, semaphores and mutexes. -/
inductive QueuePtr
  | readyQueue
  | waitQueue
  | process (p : Nat)
  | semaphore (i : Nat)
  | mutex (i : Nat)
deriving DecidableEq, Repr

/-- `semaphore_t`, apart from its queue. -/
structure Semaphore where
  count : Word
  lock : Word
deriving DecidableEq, Repr

/-- `mutex_t`, apart from its queue. -/
structure Mutex where
  lock : Word
  lockedTask : Option TaskId
deriving DecidableEq, Repr

/-- The tasks, the queues and the globals of the scheduler. -/
structure Sched where
  /-- `next_task` of each task, `first` and `last` of each queue. -/
  links : Links QueuePtr TaskId
  state : TaskId → TaskState
  waitTarget : TaskId → BitVec 64
  /-- The saved `eip` is the one of `switch_task`, not the entry of the task. -/
  switched : TaskId → Bool
  current : Option TaskId
  semaphores : Nat → Semaphore
  mutexes : Nat → Mutex
  blockedList : List TaskId
  schedulerReady : Bool
  lockCount : Nat
  postponed : Bool
  enableInts : Bool
  /-- The interrupt flag of the processor. -/
  interrupts : Bool
  /-- The local `task` of a `__schedule` that idles. -/
  idle : Option TaskId
  timerTicks : BitVec 64
  /-- The tasks handed to `task_add` so far; only bounds the loop over the wait queue. -/
  tasks : List TaskId

namespace Sched

/-- `task->state = v`. -/
abbrev setState (s : Sched) (task : TaskId) (v : TaskState) : Sched := { s with state := Function.update s.state task v }

/-- Write the semaphore `i`. -/
abbrev setSemaphore (s : Sched) (i : Nat) (v : Semaphore) : Sched :=
  { s with semaphores := Function.update s.semaphores i v }

/-- Write the mutex `i`. -/
abbrev setMutex (s : Sched) (i : Nat) (v : Mutex) : Sched := { s with mutexes := Function.update s.mutexes i v }

end Sched

/-- `current_task`, where the code goes on only if it is not `NULL`. -/
def currentTask (s : Sched) : Kernel TaskId :=
  match s.current with
  | some task => .ok task
  | none => .error .assertion

/-! ## Queues -/

/-- `task_queue`. -/
def taskQueue (s : Sched) (q : QueuePtr) (task : TaskId) : Kernel Sched := do
  kassert (s.interrupts = false)
  kassert (s.links.next task = none)
  match (s.links.queues q).first with
  | none => do
    kassert ((s.links.queues q).last = none)
    return { s with links := s.links.setQueue q ⟨some task, some task⟩ }
  | some _ =>
    match (s.links.queues q).last with
    | none => throw .assertion
    | some last =>
      return { s with links := (s.links.setNext last (some task)).setQueue q ⟨(s.links.queues q).first, some task⟩ }

/-- `task_dequeue`. -/
def taskDequeue (s : Sched) (q : QueuePtr) : Kernel (Option TaskId × Sched) := do
  kassert (s.interrupts = false)
  match (s.links.queues q).first with
  | none => return (none, s)
  | some task =>
    if s.links.next task = none then do
      kassert ((s.links.queues q).last = some task)
      return (some task, { s with links := (s.links.setQueue q ⟨none, none⟩).setNext task none })
    else
      return (some task, { s with
        links := (s.links.setQueue q ⟨s.links.next task, (s.links.queues q).last⟩).setNext task none })

/-! ## Context switches -/

/-- `__restore_task`: `true` if the task goes on in `switch_task`, `false` if it starts at its entry. -/
def restoreTask (s : Sched) (task : TaskId) : Kernel Bool := do
  kassert (s.interrupts = false)
  kassert (s.lockCount = 0)
  return s.switched task

/-- `switch_task`, called by `current`. -/
def switchTask (s : Sched) (current newTask : TaskId) : Kernel (Bool × Sched) := do
  kassert (s.interrupts = false)
  kassert (s.lockCount = 0)
  kassert (s.state newTask = .running)
  let s := { s with switched := Function.update s.switched current true, current := some newTask }
  let back ← restoreTask s newTask
  return (back, s)

/-- The end of `__schedule`, in the task that runs now. -/
def scheduleEnd (r : Bool × Sched) : Kernel (Bool × Sched) :=
  if r.1 then do
    let task ← currentTask r.2
    kassert (r.2.state task = .running)
    return r
  else return r

/-- `__schedule` from the point where `next_task` is chosen. -/
def scheduleSwitch (s : Sched) (current nextTask : TaskId) : Kernel (Bool × Sched) :=
  if current ≠ nextTask then do
    kassert (s.state nextTask = .ready)
    if s.state current = .running then do
      let s ← taskQueue (s.setState current .ready) .readyQueue current
      let r ← switchTask (s.setState nextTask .running) current nextTask
      scheduleEnd r
    else if s.state current = .terminated then do
      let s := { s.setState nextTask .running with current := some nextTask }
      let back ← restoreTask s nextTask
      scheduleEnd (back, s)
    else do
      let r ← switchTask (s.setState nextTask .running) current nextTask
      scheduleEnd r
  else scheduleEnd (true, s)

/-- `__schedule` up to the idle loop: `true` if the running task is back in the caller of its own `__schedule`,
`false` if it starts at its entry or if the processor idles. -/
def rawSchedule (s : Sched) : Kernel (Bool × Sched) := do
  kassert (s.interrupts = false)
  kassert (s.lockCount = 0)
  let current ← currentTask s
  let (nextTask, s) ← taskDequeue s .readyQueue
  match nextTask with
  | some nextTask => scheduleSwitch s current nextTask
  | none =>
    if s.state current = .running then scheduleSwitch s current current
    else return (false, { s with current := none, idle := some current, lockCount := s.lockCount + 1, interrupts := true })

/-- The rest of `scheduler_unlock` once `scheduler_lock_count` is 0 and nothing is left to schedule. -/
def unlockTail (s : Sched) : Sched :=
  if s.enableInts then { s with enableInts := false, interrupts := true } else s

/-- What follows `__schedule`: its only caller that is returned to is `scheduler_unlock`. -/
def afterSchedule (r : Bool × Sched) : Sched := if r.1 then unlockTail r.2 else r.2

/-- The idle loop of `__schedule` after a `hlt`: wait on, or go on with a task that is ready. -/
def idleWake (s : Sched) : Kernel Sched :=
  match s.idle with
  | none => throw .assertion
  | some task =>
    if (s.links.queues .readyQueue).first = none then return { s with interrupts := true }
    else do
      let s := { s with interrupts := false, postponed := false, current := some task, idle := none,
                        lockCount := s.lockCount - 1 }
      kassert (s.lockCount = 0)
      let (nextTask, s) ← taskDequeue s .readyQueue
      match nextTask with
      | none => throw .assertion
      | some nextTask =>
        if task = nextTask then do
          kassert (s.state task = .ready)
          let r ← scheduleSwitch (s.setState task .running) task nextTask
          return afterSchedule r
        else do
          let r ← scheduleSwitch s task nextTask
          return afterSchedule r

/-! ## The scheduler lock -/

/-- `scheduler_lock`. -/
def schedulerLock (s : Sched) : Kernel Sched :=
  if s.lockCount = 0 then do
    kassert (s.postponed = false)
    return { s with interrupts := false, enableInts := s.enableInts || s.interrupts, lockCount := s.lockCount + 1 }
  else return { s with interrupts := false, lockCount := s.lockCount + 1 }

/-- `scheduler_unlock`. -/
def schedulerUnlock (s : Sched) : Kernel Sched := do
  kassert (s.interrupts = false)
  kassert (s.lockCount ≠ 0)
  let s := { s with lockCount := s.lockCount - 1 }
  if s.lockCount = 0 then
    if s.schedulerReady && s.postponed then do
      let r ← rawSchedule { s with postponed := false }
      return afterSchedule r
    else return unlockTail s
  else return s

/-- `schedule`. -/
def schedule (s : Sched) : Kernel Sched := do
  kassert (s.interrupts = false)
  kassert (s.lockCount ≠ 0)
  kassert (s.schedulerReady = true)
  return { s with postponed := true }

/-- `yield`. -/
def yield (s : Sched) : Kernel Sched := do
  let s ← schedulerLock s
  let s ← schedule s
  schedulerUnlock s

/-! ## Blocking -/

/-- `__task_block`. -/
def rawTaskBlock (s : Sched) (q : QueuePtr) (task : TaskId) (reason : TaskState) : Kernel Sched := do
  kassert (s.lockCount ≠ 0)
  kassert (s.interrupts = false)
  let s ← taskQueue (s.setState task reason) q task
  return { s with blockedList := s.blockedList ++ [task] }

/-- `task_block`. -/
def taskBlock (s : Sched) (q : QueuePtr) (reason : TaskState) : Kernel Sched := do
  let s ← schedulerLock s
  kassert (s.lockCount = 1)
  let task ← currentTask s
  let s ← rawTaskBlock s q task reason
  let s ← schedule s
  schedulerUnlock s

/-- `__task_unblock`. -/
def rawTaskUnblock (s : Sched) (task : TaskId) : Kernel Sched := do
  kassert (s.lockCount ≠ 0)
  kassert (s.interrupts = false)
  let s ← taskQueue (s.setState task .ready) .readyQueue task
  return { s with blockedList := s.blockedList.erase task }

/-- `task_unblock_next`. -/
def taskUnblockNext (s : Sched) (q : QueuePtr) : Kernel Sched := do
  let s ← schedulerLock s
  let (task, s) ← taskDequeue s q
  match task with
  | some task => do
    let s ← rawTaskUnblock s task
    let s ← schedule s
    schedulerUnlock s
  | none => schedulerUnlock s

/-! ## Sleeping -/

/-- `task_sleep_until`. The test is made with the scheduler unlocked; `seen` is the `timer_ticks` it read. -/
def taskSleepUntil (s : Sched) (seen target : BitVec 64) : Kernel Sched :=
  if target ≤ seen then return s
  else do
    let s ← schedulerLock s
    kassert (s.lockCount = 1)
    let task ← currentTask s
    kassert (s.state task = .running)
    let s := { s.setState task .waiting with waitTarget := Function.update s.waitTarget task target }
    let s ← taskQueue s .waitQueue task
    let s ← schedule s
    schedulerUnlock s

/-- `task_sleep_miliseconds`. -/
def taskSleepMiliseconds (s : Sched) (time : BitVec 64) : Kernel Sched := do
  let s ← schedulerLock s
  kassert (s.lockCount = 1)
  let task ← currentTask s
  let s := { s with waitTarget := Function.update s.waitTarget task (s.timerTicks + time) }
  let s ← rawTaskBlock s .waitQueue task .waiting
  let s ← schedule s
  schedulerUnlock s

/-- The body of the loop of `scheduler_wakeup`, for a task that is off its queue. -/
def wakeupTask (s : Sched) (task : TaskId) : Kernel Sched :=
  if s.waitTarget task ≤ s.timerTicks then
    rawTaskUnblock { s with waitTarget := Function.update s.waitTarget task 0 } task
  else taskQueue s .waitQueue task

/-- The loop of `scheduler_wakeup`. A chain of tasks is no longer than there are tasks, unless it is a cycle. -/
def wakeupLoop : Nat → Option TaskId → Sched → Kernel Sched
  | _, none, s => .ok s
  | 0, some _, _ => .error .bounds
  | rounds + 1, some task, s => do
    let nextTask := s.links.next task
    let s ← wakeupTask { s with links := s.links.setNext task none } task
    wakeupLoop rounds nextTask s

/-- `scheduler_wakeup`. -/
def schedulerWakeup (s : Sched) : Kernel Sched :=
  if s.schedulerReady = false then return s
  else do
    let s ← schedulerLock s
    let task := (s.links.queues .waitQueue).first
    let s := { s with links := s.links.setQueue .waitQueue ⟨none, none⟩ }
    let s ← wakeupLoop s.tasks.length task s
    let s ← schedule s
    schedulerUnlock s

/-- `irq0_handler`. -/
def irq0Handler (s : Sched) : Kernel Sched := schedulerWakeup { s with timerTicks := s.timerTicks + 1 }

/-! ## Semaphores -/

/-- `spin_lock` of the lock in the semaphore `i`. -/
def spinLock (s : Sched) (i : Nat) : Kernel Sched := do
  let s ← schedulerLock s
  kassert ((s.semaphores i).lock = 0#32)
  return s.setSemaphore i ⟨(s.semaphores i).count, 1#32⟩

/-- `spin_unlock` of the lock in the semaphore `i`. -/
def spinUnlock (s : Sched) (i : Nat) : Kernel Sched := do
  kassert ((s.semaphores i).lock = 1#32)
  schedulerUnlock (s.setSemaphore i ⟨(s.semaphores i).count, 0#32⟩)

/-- `semaphore_acquire` between `spin_lock` and the assertion. -/
def acquireSection (s : Sched) (i : Nat) : Kernel Sched :=
  if 0#32 < (s.semaphores i).count then
    return s.setSemaphore i ⟨(s.semaphores i).count - 1#32, (s.semaphores i).lock⟩
  else do
    let s ← schedulerLock s
    let task ← currentTask s
    let s ← rawTaskBlock s (.semaphore i) task .blockedLock
    let s ← schedule s
    schedulerUnlock s

/-- `semaphore_acquire`. -/
def semaphoreAcquire (s : Sched) (i : Nat) : Kernel Sched := do
  let s ← spinLock s i
  let s ← acquireSection s i
  kassert (s.lockCount = 1)
  spinUnlock s i

/-- `semaphore_release` between `spin_lock` and `spin_unlock`. -/
def releaseSection (s : Sched) (i : Nat) : Kernel Sched :=
  if (s.links.queues (.semaphore i)).first ≠ none then do
    let s ← schedulerLock s
    let s ← taskUnblockNext s (.semaphore i)
    schedulerUnlock s
  else return s.setSemaphore i ⟨(s.semaphores i).count + 1#32, (s.semaphores i).lock⟩

/-- `semaphore_release`. -/
def semaphoreRelease (s : Sched) (i : Nat) : Kernel Sched := do
  let s ← spinLock s i
  let s ← releaseSection s i
  spinUnlock s i

/-! ## Tasks -/

/-- `task_add`. -/
def taskAdd (s : Sched) (task : TaskId) : Kernel Sched := do
  let s ← schedulerLock { s.setState task .ready with tasks := task :: s.tasks }
  let s ← taskQueue s .readyQueue task
  schedulerUnlock s

/-- `task_exit`. -/
def taskExit (s : Sched) : Kernel Sched := do
  kassert (s.lockCount = 1)
  let task ← currentTask s
  kassert (s.state task = .running)
  let s := { s.setState task .terminated with lockCount := s.lockCount - 1 }
  kassert (s.lockCount = 0)
  let r ← rawSchedule { s with postponed := false }
  return afterSchedule r

/-- `tasking_enable`. -/
def taskingEnable (s : Sched) : Kernel Sched := do
  let s := { s with interrupts := false }
  kassert (s.schedulerReady = false)
  let s := { s with schedulerReady := true }
  kassert (s.current = none)
  let (task, s) ← taskDequeue s .readyQueue
  match task with
  | none => throw .assertion
  | some task => do
    kassert (s.state task = .ready)
    let s := { s.setState task .running with current := some task }
    kassert (s.lockCount = 0)
    let back ← restoreTask s task
    return afterSchedule (back, s)

/-! ## Runs -/

/-- The state before `kmain` has added a task. -/
def boot (semaphores : Nat → Word) : Sched where
  links := ⟨fun _ => none, fun _ => ⟨none, none⟩⟩
  state _ := .ready
  waitTarget _ := 0
  switched _ := false
  current := none
  semaphores i := ⟨semaphores i, 0#32⟩
  mutexes _ := ⟨0#32, none⟩
  blockedList := []
  schedulerReady := false
  lockCount := 0
  postponed := false
  enableInts := false
  interrupts := false
  idle := none
  timerTicks := 0
  tasks := []

/-- What the running code or an interrupt does next. -/
inductive SchedOp
  /-- `sti`, `cli`, and entry to and return from an interrupt handler. -/
  | flags (interrupts : Bool)
  | schedulerLock
  | schedulerUnlock
  | taskAdd (task : TaskId)
  | taskingEnable
  | yield
  | taskBlock (q : QueuePtr) (reason : TaskState)
  | taskUnblockNext (q : QueuePtr)
  | taskSleepUntil (seen target : BitVec 64)
  | taskSleepMiliseconds (time : BitVec 64)
  | semaphoreAcquire (i : Nat)
  | semaphoreRelease (i : Nat)
  | taskExit
  /-- A timer interrupt. -/
  | tick
  /-- `hlt` returns in the idle loop. -/
  | idleWake
deriving DecidableEq, Repr

/-- One operation. -/
def schedStep (s : Sched) : SchedOp → Kernel Sched
  | .flags interrupts => .ok { s with interrupts := interrupts }
  | .schedulerLock => schedulerLock s
  | .schedulerUnlock => schedulerUnlock s
  | .taskAdd task => taskAdd s task
  | .taskingEnable => taskingEnable s
  | .yield => yield s
  | .taskBlock q reason => taskBlock s q reason
  | .taskUnblockNext q => taskUnblockNext s q
  | .taskSleepUntil seen target => taskSleepUntil s seen target
  | .taskSleepMiliseconds time => taskSleepMiliseconds s time
  | .semaphoreAcquire i => semaphoreAcquire s i
  | .semaphoreRelease i => semaphoreRelease s i
  | .taskExit => taskExit s
  | .tick => irq0Handler s
  | .idleWake => idleWake s

end Myunix.Task
