import Myunix.Task.Sections

/-!
# The scheduler lock counts the calls of one context

`scheduler_lock_count` is one counter for all tasks. Here each context has a count of its own: the calls of
`scheduler_lock` it has not matched yet. `Nested` lets a context do what its own count allows, whatever the counter of
the scheduler says. `lock_runs_disciplined` says that the counter is nevertheless the count of the running context in
every state of every such run, that no context switch happens inside a section, and that no assertion fails.
-/

namespace Myunix.Task

open Lib

/-- An operation of the scheduler, or `schedule` inside a section. -/
inductive LockOp
  | call (op : SchedOp)
  | schedule
deriving DecidableEq, Repr

/-- The unmatched calls of `scheduler_lock` of each context. -/
abbrev Held := Option TaskId → Nat

/-- The counts after an operation of the context `c`; `task_exit` gives back the lock of its task. -/
def counted (held : Held) (c : Option TaskId) : SchedOp → Held
  | .schedulerLock => Function.update held c (held c + 1)
  | .schedulerUnlock | .taskExit => Function.update held c (held c - 1)
  | .flags _ | .taskAdd _ | .taskingEnable | .yield | .taskBlock _ _ | .taskUnblockNext _ | .taskSleepUntil _ _
  | .taskSleepMiliseconds _ | .semaphoreAcquire _ | .semaphoreRelease _ | .tick | .idleWake => held

/-- One operation, and the counts. -/
def lockStep (x : Sched × Held) : LockOp → Kernel (Sched × Held)
  | .call op => do
    let s ← schedStep x.1 op
    return (s, counted x.2 (context x.1) op)
  | .schedule => do
    let s ← schedule x.1
    return (s, x.2)

/-- The running context may make this call: `Legal` by its own count of locks. -/
def Nested (x : Sched × Held) : LockOp → Prop
  | .call op => Legal { x.1 with lockCount := x.2 (context x.1) + lockBase x.1 } op
  | .schedule => 0 < x.2 (context x.1) ∧ x.1.schedulerReady = true

/-- **The discipline of the lock**: a switch is only pending inside a section, the counter is the count of the running
context and one more in the idle loop, and no other context holds the lock. -/
structure Disciplined (x : Sched × Held) : Prop where
  postponed : x.1.lockCount = 0 → x.1.postponed = false
  count : x.1.lockCount = x.2 (context x.1) + lockBase x.1
  others : ∀ c, c ≠ context x.1 → x.2 c = 0

section Counts

variable {s s' : Sched} {held : Held} {L : QueuePtr → List TaskId} {c : Cpu}

theorem Steady.idle_eq_none (h : Steady s L c) (hcount : s.lockCount = 0) : s.idle = none := by
  have hbase := h.base
  rw [← h.lockBase_eq, hcount, lockBase] at hbase
  split at hbase
  · assumption
  · simp at hbase

theorem Disciplined.eq_zero (h : Disciplined (s, held)) (hzero : held (context s) = 0) (c : Option TaskId) :
    held c = 0 := by
  rcases eq_or_ne c (context s) with rfl | hc
  · exact hzero
  · exact h.others c hc

/-- What is left to show of a step: the counter, the other contexts, and the switches. -/
def Counts (s s' : Sched) (held : Held) : Prop :=
  s'.lockCount = held (context s') + lockBase s' ∧ (∀ c, c ≠ context s' → held c = 0) ∧
    (context s' ≠ context s → s'.lockCount = 0)

/-- A step that stays in its context. -/
theorem counts_same {held' : Held} (h : Disciplined (s, held)) (hidle : s'.idle = s.idle)
    (hcur : s'.current = s.current) (hcount : s'.lockCount = held' (context s) + lockBase s)
    (hother : ∀ c, c ≠ context s → held' c = held c) : Counts s s' held' := by
  have hctx : context s' = context s := by simp [context, hidle, hcur]
  have hbase : lockBase s' = lockBase s := by simp [lockBase, hidle]
  rw [Counts, hctx, hbase]
  exact ⟨hcount, fun c hc => (hother c hc).trans (h.others c hc), fun hne => absurd rfl hne⟩

/-- At the end of an outermost section nobody holds the lock. -/
theorem Ended.counts {m : Sched} (h : Ended m s') (hctx : context m = context s) (hzero : ∀ c, held c = 0) :
    Counts s s' held := by
  refine ⟨?_, fun c _ => hzero c, fun hne => ?_⟩
  · rw [hzero]
    cases h with
    | stays count idle current ints switched => simp [lockBase, idle, count]
    | switches leaves ne count idle current back fresh left => simp [lockBase, idle, count]
    | idles leaves count idle current ints switched => simp [lockBase, idle, count]
  · cases h with
    | stays count idle current ints switched => exact count
    | switches leaves ne count idle current back fresh left => exact count
    | idles leaves count idle current ints switched =>
      refine absurd ?_ hne
      rw [← hctx, leaves, context, idle]

theorem Pair.counts (h : Pair s s') (hd : Disciplined (s, held)) : Counts s s' held := by
  have hcount : s.lockCount = held (context s) + lockBase s := hd.count
  cases h with
  | nested inside count idle current ints switched =>
    exact counts_same hd idle current (count.trans hcount) fun _ _ => rfl
  | outer outside ended => exact ended.counts rfl (hd.eq_zero (by omega))

/-- The last section of the running context is over. -/
theorem update_eq_zero (h : Disciplined (s, held)) (c : Option TaskId) (hone : held (context s) = 1) :
    Function.update held (context s) (held (context s) - 1) c = 0 := by
  rcases eq_or_ne c (context s) with rfl | hc
  · rw [Function.update_self, hone]
  · rw [Function.update_of_ne hc]
    exact h.others c hc

theorem schedulerUnlock_counts (h : Disciplined (s, held)) (hpos : 0 < held (context s))
    (hrun : schedulerUnlock s = .ok s') (hidle : s.lockCount = 1 → s.idle = none) :
    Counts s s' (Function.update held (context s) (held (context s) - 1)) := by
  have hcount : s.lockCount = held (context s) + lockBase s := h.count
  by_cases h1 : s.lockCount = 1
  · have hone : held (context s) = 1 := by omega
    exact (schedulerUnlock_outer hrun h1 (hidle h1)).counts rfl fun c => update_eq_zero h c hone
  · obtain ⟨-, rfl⟩ := schedulerUnlock_inner hrun h1
    refine counts_same h rfl rfl ?_ fun c hc => Function.update_of_ne hc ..
    rw [Function.update_self]
    show s.lockCount - 1 = _
    omega

/-- **One operation of the scheduler.** -/
theorem schedStep_counts {op : SchedOp} (hsound : Sound s L c) (h : Disciplined (s, held)) (hl : Legal s op)
    (hrun : schedStep s op = .ok s') : Counts s s' (counted held (context s) op) := by
  have hcount : s.lockCount = held (context s) + lockBase s := h.count
  have hidle : s.lockCount = 0 → s.idle = none := hsound.idle_eq_none
  have hbase : s.current ≠ none → s.idle = none := by
    intro hcur
    obtain ⟨t, rfl, -⟩ := hsound.eq_run hcur
    exact hsound.cpu.2.2
  have hpair : Composite op → Counts s s' held := fun hop => by
    obtain ⟨-, hp⟩ | ⟨-, same⟩ := schedStep_pair hop hidle hrun
    · exact hp.counts h
    · exact counts_same h same.idle same.current (same.lockCount.trans hcount) fun _ _ => rfl
  cases op with
  | flags b =>
    rw [schedStep, Except.ok.injEq] at hrun
    subst hrun
    exact counts_same h rfl rfl hcount fun _ _ => rfl
  | schedulerLock =>
    rw [schedulerLock_eq hrun]
    refine counts_same h rfl rfl ?_ fun c hc => Function.update_of_ne hc ..
    rw [counted, Function.update_self]
    show s.lockCount + 1 = _
    omega
  | schedulerUnlock =>
    have hpos : lockBase s < s.lockCount := hl
    refine schedulerUnlock_counts h (by omega) hrun fun h1 => ?_
    have h0 : lockBase s = 0 := by omega
    rw [lockBase] at h0
    split at h0
    · assumption
    · simp at h0
  | taskingEnable =>
    obtain ⟨-, h0, -⟩ := hl
    obtain ⟨hcount', hidle', -, -, -⟩ := taskingEnable_eq hrun (hidle h0)
    have hzero := h.eq_zero (by omega)
    exact ⟨by rw [hcount', counted, hzero, lockBase, if_pos hidle'], fun c _ => hzero c, fun _ => hcount'⟩
  | taskExit =>
    obtain ⟨hcur, h1⟩ := hl
    have hidle' := hbase hcur
    have hone : held (context s) = 1 := by rwa [hcount, lockBase, if_pos hidle', Nat.add_zero] at h1
    exact (taskExit_ended hidle' hrun).counts rfl fun c => update_eq_zero h c hone
  | idleWake =>
    obtain ⟨hne, h1⟩ := hl
    obtain ⟨t, rfl⟩ := hsound.eq_idle hne
    have hzero : held (context s) = 0 := by
      rw [hcount, lockBase, if_neg hne] at h1
      omega
    exact (idleWake_ended h1 hsound.cpu.2.1 hrun).counts rfl (h.eq_zero hzero)
  | yield => exact hpair trivial
  | taskBlock q reason => exact hpair trivial
  | taskUnblockNext q => exact hpair trivial
  | taskSleepUntil seen target => exact hpair trivial
  | taskSleepMiliseconds time => exact hpair trivial
  | semaphoreAcquire i => exact hpair trivial
  | semaphoreRelease i => exact hpair trivial
  | taskAdd t => exact hpair trivial
  | tick => exact hpair trivial

/-- **One step** returns, keeps the discipline, and switches contexts only with the scheduler unlocked. -/
theorem lockStep_spec {op : LockOp} (hsound : Sound s L c) (h : Disciplined (s, held)) (hn : Nested (s, held) op) :
    ∃ x', lockStep (s, held) op = .ok x' ∧ (∃ L c, Sound x'.1 L c) ∧ Disciplined x' ∧
      (context x'.1 ≠ context s → x'.1.lockCount = 0) := by
  have hcount : s.lockCount = held (context s) + lockBase s := h.count
  cases op with
  | call op =>
    have hl : Legal s op := by
      rw [Nested, ← h.count] at hn
      exact hn
    obtain ⟨s', L', c', hrun, hstep⟩ := schedStep_spec hsound hl
    obtain ⟨h1, h2, h3⟩ := schedStep_counts hsound h hl hrun
    exact ⟨(s', counted held (context s) op), by rw [lockStep, hrun]; rfl, ⟨L', c', hstep.sound⟩,
      ⟨hstep.sound.postponed, h1, h2⟩, h3⟩
  | schedule =>
    obtain ⟨hpos, hready⟩ := hn
    have hpos : 0 < held (context s) := hpos
    have hlt : c.base < s.lockCount := by
      rw [← hsound.lockBase_eq]
      omega
    obtain ⟨hrun, hsteady⟩ := schedule_steady hsound.toSteady hlt (hsound.ne_boot hready)
    refine ⟨({ s with postponed := true }, held), by rw [lockStep, hrun]; rfl, ⟨L, c, hsteady, hsound.spin⟩,
      ⟨hsteady.postponed, hcount, h.others⟩, fun hne => absurd rfl hne⟩

end Counts

/-- **The lock is disciplined in every run.** If every context makes only the calls its own count of locks allows, then
all calls return, the discipline holds in the state the run ends in, and every further call of that kind returns and
leaves its context only with `scheduler_lock_count` 0. -/
theorem lock_runs_disciplined (counts : Nat → Word) (ops : List LockOp)
    (h : StepsMeet lockStep Nested (boot counts, fun _ => 0) ops) :
    ∃ x, runSteps lockStep (boot counts, fun _ => 0) ops = .ok x ∧ Disciplined x ∧
      ∀ op, Nested x op → ∃ x', lockStep x op = .ok x' ∧ Disciplined x' ∧
        (context x'.1 ≠ context x.1 → x'.1.lockCount = 0) := by
  obtain ⟨x, hrun, ⟨L, c, hsound⟩, hx⟩ := runSteps_inv
    (I := fun _ x => (∃ L c, Sound x.1 L c) ∧ Disciplined x)
    (fun _ x op hI (hn : Nested x op) => by
      obtain ⟨⟨L, c, hsound⟩, hx⟩ := hI
      obtain ⟨x', hstep, hsound', hx', -⟩ := lockStep_spec hsound hx hn
      exact ⟨x', hstep, hsound', hx'⟩)
    ops [] ⟨⟨_, _, boot_sound counts⟩, fun _ => rfl, rfl, fun _ _ => rfl⟩ h
  refine ⟨x, hrun, hx, fun op hn => ?_⟩
  obtain ⟨x', hstep, -, hx', hswitch⟩ := lockStep_spec hsound hx hn
  exact ⟨x', hstep, hx', hswitch⟩

/-- Two tasks: one asks for a switch inside a section and ends later, the other sleeps until a timer interrupt. -/
def disciplineRun : List LockOp :=
  [.call (.taskAdd 1), .call (.taskAdd 2), .call .taskingEnable, .call .schedulerLock, .call .schedulerLock, .schedule,
    .call .schedulerUnlock, .call .schedulerUnlock, .call (.taskSleepUntil 0 1), .call .schedulerLock, .call .taskExit,
    .call .tick, .call .idleWake]

theorem disciplineRun_disciplined :
    ∃ x, runSteps lockStep (boot fun _ => 0#32, fun _ => 0) disciplineRun = .ok x ∧ Disciplined x ∧
      ∀ op, Nested x op → ∃ x', lockStep x op = .ok x' ∧ Disciplined x' ∧
        (context x'.1 ≠ context x.1 → x'.1.lockCount = 0) := by
  apply lock_runs_disciplined _ _
  apply stepsMeet_cons (by simp [Nested, Legal, boot]) rfl
  apply stepsMeet_cons (show 2 ∉ [1] by decide) rfl
  refine stepsMeet_cons ⟨rfl, rfl, by decide⟩ rfl ?_
  apply stepsMeet_cons trivial rfl
  apply stepsMeet_cons trivial rfl
  refine stepsMeet_cons ⟨by decide, rfl⟩ rfl ?_
  refine stepsMeet_cons (show (0 : Nat) < 2 by decide) rfl ?_
  refine stepsMeet_cons (show (0 : Nat) < 1 by decide) rfl ?_
  refine stepsMeet_cons ⟨by decide, rfl⟩ rfl ?_
  apply stepsMeet_cons trivial rfl
  refine stepsMeet_cons ⟨by decide, rfl⟩ rfl ?_
  refine stepsMeet_cons rfl rfl ?_
  exact stepsMeet_cons ⟨by decide, rfl⟩ rfl trivial

example : ∃ x, runSteps lockStep (boot fun _ => 0#32, fun _ => 0) disciplineRun = .ok x ∧ x.1.current = some 2 ∧
    x.1.state 1 = .terminated :=
  ⟨_, rfl, rfl, rfl⟩

end Myunix.Task
