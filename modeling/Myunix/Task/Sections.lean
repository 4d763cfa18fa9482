import Myunix.Task.Runs

/-!
# How locked sections begin and end

`scheduler_lock_count`, `enable_ints` and the interrupt flag are one set of globals for all tasks, while a task that
has lost the processor stays in the middle of its own `scheduler_unlock`. This module says what each function of
`task.c` does to them when it returns, whatever the state it was called in.

`Ended m s` is the end of an outermost section: its context goes on, another task takes over where it was left or at
its entry, or the processor idles. `Pair s s'` is a call that locks and unlocks the scheduler, and `schedStep_pair` says
that all composite operations are such calls.
-/

namespace Myunix.Task

open Lib

/-! ## Contexts -/

/-- The task on whose stack the processor works; `none` is `kmain`. The idle loop runs on the stack of the task whose
`__schedule` it is in. -/
def context (s : Sched) : Option TaskId :=
  match s.idle with
  | some task => some task
  | none => s.current

/-- The globals of locks and interrupts are unchanged. -/
structure SameCpu (s s' : Sched) : Prop where
  lockCount : s'.lockCount = s.lockCount
  idle : s'.idle = s.idle
  current : s'.current = s.current
  enableInts : s'.enableInts = s.enableInts
  interrupts : s'.interrupts = s.interrupts
  switched : s'.switched = s.switched

theorem SameCpu.refl (s : Sched) : SameCpu s s := ⟨rfl, rfl, rfl, rfl, rfl, rfl⟩

theorem SameCpu.trans {s₁ s₂ s₃ : Sched} (h : SameCpu s₁ s₂) (h' : SameCpu s₂ s₃) : SameCpu s₁ s₃ :=
  ⟨h'.lockCount.trans h.lockCount, h'.idle.trans h.idle, h'.current.trans h.current,
    h'.enableInts.trans h.enableInts, h'.interrupts.trans h.interrupts, h'.switched.trans h.switched⟩

/-- **The end of an outermost section** that has worked in the state `m`, in the state `s'` after it. -/
inductive Ended (m s' : Sched) : Prop
  /-- The context goes on behind its `scheduler_unlock`. -/
  | stays (count : s'.lockCount = 0) (idle : s'.idle = none) (current : s'.current = context m)
      (ints : s'.interrupts = m.enableInts ∧ s'.enableInts = false) (switched : s'.switched = m.switched)
  /-- The task `u` goes on behind its own `scheduler_unlock`, or starts at its entry. -/
  | switches {t u : TaskId} (leaves : context m = some t) (ne : u ≠ t) (count : s'.lockCount = 0) (idle : s'.idle = none)
      (current : s'.current = some u)
      (back : m.switched u = true → s'.interrupts = m.enableInts ∧ s'.enableInts = false)
      (fresh : m.switched u = false → s'.interrupts = false ∧ s'.enableInts = m.enableInts)
      (left : s'.switched = Function.update m.switched t true ∨
        s'.switched = m.switched ∧ s'.state t = .terminated)
  /-- There is nothing to run. -/
  | idles {t : TaskId} (leaves : context m = some t) (count : s'.lockCount = 1) (idle : s'.idle = some t)
      (current : s'.current = none) (ints : s'.interrupts = true ∧ s'.enableInts = m.enableInts)
      (switched : s'.switched = m.switched)

/-- Only the context, `enable_ints` and the saved tasks matter at the end of a section. -/
theorem Ended.congr {m m' s' : Sched} (h : Ended m s') (hctx : context m' = context m)
    (hints : m'.enableInts = m.enableInts) (hsw : m'.switched = m.switched) : Ended m' s' := by
  cases h with
  | stays count idle current ints switched =>
    exact .stays count idle (current.trans hctx.symm) (by rw [hints]; exact ints) (switched.trans hsw.symm)
  | switches leaves ne count idle current back fresh left =>
    refine .switches (hctx.trans leaves) ne count idle current ?_ ?_ ?_
    · rw [hsw, hints]; exact back
    · rw [hsw, hints]; exact fresh
    · rw [hsw]; exact left
  | idles leaves count idle current ints switched =>
    exact .idles (hctx.trans leaves) count idle current (by rw [hints]; exact ints) (switched.trans hsw.symm)

/-- A call that locks and unlocks the scheduler. -/
inductive Pair (s s' : Sched) : Prop
  /-- It was made inside a section. -/
  | nested (inside : s.lockCount ≠ 0) (count : s'.lockCount = s.lockCount) (idle : s'.idle = s.idle)
      (current : s'.current = s.current) (ints : s'.interrupts = false ∧ s'.enableInts = s.enableInts)
      (switched : s'.switched = s.switched)
  /-- It was an outermost section of its own. -/
  | outer (outside : s.lockCount = 0)
      (ended : Ended { s with enableInts := s.enableInts || s.interrupts } s')

/-! ## What leaves the globals alone -/

section Frame

variable {s s' : Sched} {q : QueuePtr} {t : TaskId}

theorem taskQueue_same (h : taskQueue s q t = .ok s') : SameCpu s s' := by
  simp only [taskQueue, bind_eq_ok, assert_eq_ok] at h
  obtain ⟨-, -, -, -, h⟩ := h
  split at h
  · simp only [bind_eq_ok, pure_eq_ok] at h
    obtain ⟨-, -, rfl⟩ := h
    exact ⟨rfl, rfl, rfl, rfl, rfl, rfl⟩
  · split at h
    · simp at h
    · rw [pure_eq_ok] at h
      subst h
      exact ⟨rfl, rfl, rfl, rfl, rfl, rfl⟩

theorem taskDequeue_same {o : Option TaskId} (h : taskDequeue s q = .ok (o, s')) : SameCpu s s' := by
  simp only [taskDequeue, bind_eq_ok, assert_eq_ok] at h
  obtain ⟨-, -, h⟩ := h
  split at h
  · simp only [pure_eq_ok, Prod.mk.injEq] at h
    obtain ⟨-, rfl⟩ := h
    exact .refl s
  · split at h
    · simp only [bind_eq_ok, pure_eq_ok, Prod.mk.injEq] at h
      obtain ⟨-, -, -, rfl⟩ := h
      exact ⟨rfl, rfl, rfl, rfl, rfl, rfl⟩
    · simp only [pure_eq_ok, Prod.mk.injEq] at h
      obtain ⟨-, rfl⟩ := h
      exact ⟨rfl, rfl, rfl, rfl, rfl, rfl⟩

theorem schedule_same (h : schedule s = .ok s') : SameCpu s s' := by
  simp only [schedule, bind_eq_ok, pure_eq_ok] at h
  obtain ⟨-, -, -, -, -, -, rfl⟩ := h
  exact ⟨rfl, rfl, rfl, rfl, rfl, rfl⟩

theorem rawTaskBlock_same {reason : TaskState} (h : rawTaskBlock s q t reason = .ok s') : SameCpu s s' := by
  simp only [rawTaskBlock, bind_eq_ok, pure_eq_ok] at h
  obtain ⟨-, -, -, -, a, ha, rfl⟩ := h
  have hq := taskQueue_same ha
  exact ⟨hq.lockCount, hq.idle, hq.current, hq.enableInts, hq.interrupts, hq.switched⟩

theorem rawTaskUnblock_same (h : rawTaskUnblock s t = .ok s') : SameCpu s s' := by
  simp only [rawTaskUnblock, bind_eq_ok, pure_eq_ok] at h
  obtain ⟨-, -, -, -, a, ha, rfl⟩ := h
  have hq := taskQueue_same ha
  exact ⟨hq.lockCount, hq.idle, hq.current, hq.enableInts, hq.interrupts, hq.switched⟩

theorem wakeupTask_same (h : wakeupTask s t = .ok s') : SameCpu s s' := by
  rw [wakeupTask] at h
  split at h
  · have hq := rawTaskUnblock_same h
    exact ⟨hq.lockCount, hq.idle, hq.current, hq.enableInts, hq.interrupts, hq.switched⟩
  · exact taskQueue_same h

theorem wakeupLoop_same {rounds : Nat} {o : Option TaskId} (h : wakeupLoop rounds o s = .ok s') : SameCpu s s' := by
  induction rounds generalizing o s with
  | zero =>
    cases o with
    | none =>
      rw [wakeupLoop, Except.ok.injEq] at h
      subst h; exact .refl s
    | some t => simp [wakeupLoop] at h
  | succ rounds ih =>
    cases o with
    | none =>
      rw [wakeupLoop, Except.ok.injEq] at h
      subst h; exact .refl s
    | some t =>
      simp only [wakeupLoop, bind_eq_ok] at h
      obtain ⟨a, ha, h⟩ := h
      have hq := wakeupTask_same ha
      exact SameCpu.trans ⟨hq.lockCount, hq.idle, hq.current, hq.enableInts, hq.interrupts, hq.switched⟩ (ih h)

end Frame

/-! ## Context switches -/

section Switches

variable {s s' : Sched} {t n : TaskId} {r : Bool × Sched}

theorem currentTask_eq {s : Sched} (h : currentTask s = .ok t) : s.current = some t := by
  unfold currentTask at h
  split at h
  · rw [Except.ok.injEq] at h
    subst h; assumption
  · cases h

theorem scheduleEnd_eq (h : scheduleEnd r = .ok (r' : Bool × Sched)) : r' = r := by
  rw [scheduleEnd] at h
  split at h
  · simp only [bind_eq_ok, pure_eq_ok] at h
    obtain ⟨-, -, -, -, rfl⟩ := h
    rfl
  · rw [pure_eq_ok] at h
    exact h.symm

theorem context_of_idle (h : s.idle = none) : context s = s.current := by simp [context, h]

/-- `scheduler_unlock` goes on in the context it was called in. -/
theorem stays_spec (hidle : s.idle = none) (hints : s.interrupts = false) (hcount : s.lockCount = 0) :
    Ended s (unlockTail s) := by
  rw [unlockTail]
  split
  · rename_i he
    exact .stays hcount hidle (context_of_idle hidle).symm ⟨he.symm, rfl⟩ rfl
  · rename_i he
    have he : s.enableInts = false := by simpa using he
    exact .stays hcount hidle (context_of_idle hidle).symm ⟨hints.trans he.symm, he⟩ rfl

/-- The task `n` takes over from `t`. -/
theorem switches_spec {a : Sched} {b : Bool} (hidle : s.idle = none) (hcur : s.current = some t) (hne : n ≠ t)
    (ha : a.lockCount = 0 ∧ a.idle = none ∧ a.current = some n ∧ a.enableInts = s.enableInts ∧ a.interrupts = false)
    (hb : b = s.switched n) (hleft : a.switched = Function.update s.switched t true ∨
      a.switched = s.switched ∧ a.state t = .terminated) : Ended s (afterSchedule (b, a)) := by
  obtain ⟨h1, h2, h3, h4, h5⟩ := ha
  have hctx : context s = some t := (context_of_idle hidle).trans hcur
  cases b with
  | true =>
    rw [afterSchedule, if_pos rfl, unlockTail]
    split
    · rename_i he
      exact .switches hctx hne h1 h2 h3 (fun _ => ⟨he.symm.trans h4, rfl⟩) (fun hf => by simp [hf] at hb) hleft
    · rename_i he
      have he : a.enableInts = false := by simpa using he
      exact .switches hctx hne h1 h2 h3 (fun _ => ⟨by rw [h5, ← h4, he], he⟩) (fun hf => by simp [hf] at hb) hleft
  | false =>
    rw [afterSchedule, if_neg (by simp)]
    exact .switches hctx hne h1 h2 h3 (fun hf => by simp [hf] at hb) (fun _ => ⟨h5, h4⟩) hleft

theorem switchTask_eq (h : switchTask s t n = .ok r) : s.lockCount = 0 ∧
    r = (Function.update s.switched t true n,
      { s with switched := Function.update s.switched t true, current := some n }) := by
  simp only [switchTask, restoreTask, bind_eq_ok, pure_eq_ok, assert_eq_ok] at h
  obtain ⟨-, -, -, hcount, -, -, -, ⟨-, -, -, -, rfl⟩, rfl⟩ := h
  exact ⟨hcount, rfl⟩

/-- The switch of `__schedule`. -/
theorem scheduleSwitch_ended (hidle : s.idle = none) (hints : s.interrupts = false) (hcount : s.lockCount = 0)
    (hcur : s.current = some t) (h : scheduleSwitch s t n = .ok r) : Ended s (afterSchedule r) := by
  rw [scheduleSwitch] at h
  split at h
  · rename_i hne
    have hne : n ≠ t := fun he => hne he.symm
    simp only [bind_eq_ok] at h
    obtain ⟨-, -, h⟩ := h
    split at h
    · simp only [bind_eq_ok] at h
      obtain ⟨a, ha, r₁, hr₁, h⟩ := h
      have hsame := taskQueue_same ha
      obtain ⟨-, rfl⟩ := switchTask_eq hr₁
      rw [scheduleEnd_eq h]
      have hsw : a.switched = s.switched := hsame.switched
      refine switches_spec hidle hcur hne ⟨hsame.lockCount.trans hcount, hsame.idle.trans hidle, rfl,
        hsame.enableInts, hsame.interrupts.trans hints⟩ ?_ (.inl ?_)
      · rw [Function.update_of_ne hne, hsw]
      · show Function.update a.switched t true = _
        rw [hsw]
    · split at h
      · rename_i hterm
        simp only [bind_eq_ok, restoreTask, pure_eq_ok] at h
        obtain ⟨-, ⟨-, -, -, -, rfl⟩, h⟩ := h
        rw [scheduleEnd_eq h]
        refine switches_spec hidle hcur hne ⟨hcount, hidle, rfl, rfl, hints⟩ rfl (.inr ⟨rfl, ?_⟩)
        exact (Function.update_of_ne hne.symm ..).trans hterm
      · simp only [bind_eq_ok] at h
        obtain ⟨r₁, hr₁, h⟩ := h
        obtain ⟨-, rfl⟩ := switchTask_eq hr₁
        rw [scheduleEnd_eq h]
        exact switches_spec hidle hcur hne ⟨hcount, hidle, rfl, rfl, hints⟩ (Function.update_of_ne hne ..) (.inl rfl)
  · rw [scheduleEnd_eq h, afterSchedule, if_pos rfl]
    exact stays_spec hidle hints hcount

/-- `__schedule` and the rest of `scheduler_unlock`. -/
theorem rawSchedule_ended (hidle : s.idle = none) (h : rawSchedule s = .ok r) : Ended s (afterSchedule r) := by
  simp only [rawSchedule, bind_eq_ok, assert_eq_ok] at h
  obtain ⟨-, hints, -, hcount, t, ht, ⟨o, a⟩, ha, h⟩ := h
  have hcur := currentTask_eq ht
  have hsame := taskDequeue_same ha
  have hctx : context s = context a := by simp [context, hsame.idle, hsame.current]
  have hswitch : ∀ n, scheduleSwitch a t n = .ok r → Ended s (afterSchedule r) := fun n hn =>
    (scheduleSwitch_ended (hsame.idle.trans hidle) (hsame.interrupts.trans hints) (hsame.lockCount.trans hcount)
      (hsame.current.trans hcur) hn).congr hctx hsame.enableInts.symm hsame.switched.symm
  cases o with
  | some n => exact hswitch n h
  | none =>
    simp only at h
    split at h
    · exact hswitch t h
    · rw [pure_eq_ok] at h
      subst h
      rw [afterSchedule, if_neg (by simp)]
      refine .idles ((context_of_idle hidle).trans hcur) ?_ rfl rfl ⟨rfl, hsame.enableInts⟩ hsame.switched
      show a.lockCount + 1 = 1
      rw [hsame.lockCount, hcount]

/-- The idle loop goes on or ends. -/
theorem idleWake_ended (hcount : s.lockCount = 1) (hcur : s.current = none) (h : idleWake s = .ok s') : Ended s s' := by
  rw [idleWake] at h
  split at h
  · simp at h
  · rename_i t hidle
    have hctx : context s = some t := by simp [context, hidle]
    split at h
    · rw [pure_eq_ok] at h
      subst h
      exact .idles hctx hcount hidle hcur ⟨rfl, rfl⟩ rfl
    · simp only [bind_eq_ok, assert_eq_ok] at h
      obtain ⟨-, hcount', ⟨o, a⟩, ha, h⟩ := h
      have hsame := taskDequeue_same ha
      have hswitch : ∀ b n r, SameCpu a b → scheduleSwitch b t n = .ok r → Ended s (afterSchedule r) := by
        intro b n r hb hr
        have hsb := hsame.trans hb
        refine (scheduleSwitch_ended hsb.idle hsb.interrupts (hsb.lockCount.trans hcount') hsb.current hr).congr ?_
          hsb.enableInts.symm hsb.switched.symm
        rw [hctx, context_of_idle hsb.idle, hsb.current]
      cases o with
      | none => simp at h
      | some n =>
        simp only at h
        split at h
        · simp only [bind_eq_ok, pure_eq_ok] at h
          obtain ⟨-, -, r, hr, rfl⟩ := h
          exact hswitch (a.setState t .running) n r ⟨rfl, rfl, rfl, rfl, rfl, rfl⟩ hr
        · simp only [bind_eq_ok, pure_eq_ok] at h
          obtain ⟨r, hr, rfl⟩ := h
          exact hswitch a n r (.refl a) hr

end Switches

/-! ## Sections -/

section Locks

variable {s a b s' : Sched}

/-- `scheduler_lock` remembers the interrupt flag of an outermost section. -/
theorem schedulerLock_eq (h : schedulerLock s = .ok a) : a = { s with
    interrupts := false, lockCount := s.lockCount + 1,
    enableInts := if s.lockCount = 0 then s.enableInts || s.interrupts else s.enableInts } := by
  rw [schedulerLock] at h
  split at h
  · rename_i hcount
    simp only [bind_eq_ok, pure_eq_ok] at h
    obtain ⟨-, -, rfl⟩ := h
    rw [if_pos hcount]
  · rename_i hcount
    rw [pure_eq_ok] at h
    rw [← h, if_neg hcount]

/-- An inner `scheduler_unlock`. -/
theorem schedulerUnlock_inner (h : schedulerUnlock s = .ok s') (hcount : s.lockCount ≠ 1) :
    s.interrupts = false ∧ s' = { s with lockCount := s.lockCount - 1 } := by
  simp only [schedulerUnlock, bind_eq_ok, assert_eq_ok] at h
  obtain ⟨-, hints, -, hpos, h⟩ := h
  rw [if_neg (by omega), pure_eq_ok] at h
  exact ⟨hints, h.symm⟩

/-- The outermost `scheduler_unlock`. -/
theorem schedulerUnlock_outer (h : schedulerUnlock s = .ok s') (hcount : s.lockCount = 1) (hidle : s.idle = none) :
    Ended s s' := by
  simp only [schedulerUnlock, bind_eq_ok, assert_eq_ok] at h
  obtain ⟨-, hints, -, -, h⟩ := h
  rw [if_pos (by omega)] at h
  have hcount' : s.lockCount - 1 = 0 := by omega
  split at h
  · simp only [bind_eq_ok, pure_eq_ok] at h
    obtain ⟨r, hr, rfl⟩ := h
    exact (rawSchedule_ended (by exact hidle) hr).congr rfl rfl rfl
  · rw [pure_eq_ok] at h
    subst h
    exact (stays_spec (s := { s with lockCount := s.lockCount - 1 }) hidle hints hcount').congr rfl rfl rfl

/-- A call made of a lock, a body that leaves the globals alone, and an unlock. -/
theorem pair_of_body (hidle : s.lockCount = 0 → s.idle = none) (hlock : schedulerLock s = .ok a) (hbody : SameCpu a b)
    (hunlock : schedulerUnlock b = .ok s') : Pair s s' := by
  have ha := schedulerLock_eq hlock
  subst ha
  have hcount : b.lockCount = s.lockCount + 1 := hbody.lockCount
  by_cases h0 : s.lockCount = 0
  · have hints : b.enableInts = (s.enableInts || s.interrupts) := hbody.enableInts.trans (if_pos h0)
    have hctx : context s = context b := by
      rw [context_of_idle (hidle h0), context_of_idle (hbody.idle.trans (hidle h0)), hbody.current]
    refine .outer h0 ?_
    exact (schedulerUnlock_outer hunlock (by omega) (hbody.idle.trans (hidle h0))).congr hctx hints.symm
      hbody.switched.symm
  · obtain ⟨hints, rfl⟩ := schedulerUnlock_inner hunlock (by omega)
    refine .nested h0 ?_ hbody.idle hbody.current ⟨hints, hbody.enableInts.trans (if_neg h0)⟩ hbody.switched
    show b.lockCount - 1 = s.lockCount
    omega

/-- Inside a section such a call leaves the globals alone. -/
theorem Pair.same (h : Pair s s') (hcount : s.lockCount ≠ 0) (hints : s.interrupts = false) : SameCpu s s' := by
  cases h with
  | nested inside count idle current ints switched =>
    exact ⟨count, idle, current, ints.2, ints.1.trans hints.symm, switched⟩
  | outer outside ended => exact absurd outside hcount

/-- Fields other than the globals do not matter to a call. -/
theorem Pair.of_same (h : Pair a s') (hsame : SameCpu s a) : Pair s s' := by
  have hctx : context s = context a := by simp [context, hsame.idle, hsame.current]
  cases h with
  | nested inside count idle current ints switched =>
    exact .nested (by rw [← hsame.lockCount]; exact inside) (count.trans hsame.lockCount) (idle.trans hsame.idle)
      (current.trans hsame.current) ⟨ints.1, ints.2.trans hsame.enableInts⟩ (switched.trans hsame.switched)
  | outer outside ended =>
    refine .outer (hsame.lockCount.symm.trans outside) (ended.congr hctx ?_ hsame.switched.symm)
    simp [hsame.enableInts, hsame.interrupts]

end Locks

/-! ## The composite operations -/

section Composite

variable {s s' : Sched}

theorem yield_pair (hidle : s.lockCount = 0 → s.idle = none) (h : yield s = .ok s') : Pair s s' := by
  simp only [yield, bind_eq_ok] at h
  obtain ⟨a, ha, b, hb, h⟩ := h
  exact pair_of_body hidle ha (schedule_same hb) h

theorem taskBlock_pair {q : QueuePtr} {reason : TaskState} (hidle : s.lockCount = 0 → s.idle = none)
    (h : taskBlock s q reason = .ok s') : Pair s s' := by
  simp only [taskBlock, bind_eq_ok] at h
  obtain ⟨a, ha, -, -, t, -, b, hb, c, hc, h⟩ := h
  exact pair_of_body hidle ha ((rawTaskBlock_same hb).trans (schedule_same hc)) h

theorem taskUnblockNext_pair {q : QueuePtr} (hidle : s.lockCount = 0 → s.idle = none)
    (h : taskUnblockNext s q = .ok s') : Pair s s' := by
  simp only [taskUnblockNext, bind_eq_ok] at h
  obtain ⟨a, ha, ⟨o, b⟩, hb, h⟩ := h
  cases o with
  | none => exact pair_of_body hidle ha (taskDequeue_same hb) h
  | some t =>
    simp only [bind_eq_ok] at h
    obtain ⟨c, hc, d, hd, h⟩ := h
    exact pair_of_body hidle ha (((taskDequeue_same hb).trans (rawTaskUnblock_same hc)).trans (schedule_same hd)) h

theorem taskSleepUntil_pair {seen target : BitVec 64} (hidle : s.lockCount = 0 → s.idle = none)
    (hlater : ¬ target ≤ seen) (h : taskSleepUntil s seen target = .ok s') : Pair s s' := by
  rw [taskSleepUntil, if_neg hlater] at h
  simp only [bind_eq_ok] at h
  obtain ⟨a, ha, -, -, t, -, -, -, b, hb, c, hc, h⟩ := h
  have hq := taskQueue_same hb
  refine pair_of_body hidle ha (SameCpu.trans ?_ (schedule_same hc)) h
  exact ⟨hq.lockCount, hq.idle, hq.current, hq.enableInts, hq.interrupts, hq.switched⟩

theorem taskSleepMiliseconds_pair {time : BitVec 64} (hidle : s.lockCount = 0 → s.idle = none)
    (h : taskSleepMiliseconds s time = .ok s') : Pair s s' := by
  simp only [taskSleepMiliseconds, bind_eq_ok] at h
  obtain ⟨a, ha, -, -, t, -, b, hb, c, hc, h⟩ := h
  have hq := rawTaskBlock_same hb
  refine pair_of_body hidle ha (SameCpu.trans ?_ (schedule_same hc)) h
  exact ⟨hq.lockCount, hq.idle, hq.current, hq.enableInts, hq.interrupts, hq.switched⟩

theorem taskAdd_pair {t : TaskId} (hidle : s.lockCount = 0 → s.idle = none) (h : taskAdd s t = .ok s') :
    Pair s s' := by
  simp only [taskAdd, bind_eq_ok] at h
  obtain ⟨a, ha, b, hb, h⟩ := h
  exact (pair_of_body (by exact hidle) ha (taskQueue_same hb) h).of_same ⟨rfl, rfl, rfl, rfl, rfl, rfl⟩

theorem tick_pair (hidle : s.lockCount = 0 → s.idle = none) (hready : s.schedulerReady = true)
    (h : irq0Handler s = .ok s') : Pair s s' := by
  rw [irq0Handler, schedulerWakeup, if_neg (by simp [hready])] at h
  simp only [bind_eq_ok] at h
  obtain ⟨a, ha, b, hb, c, hc, h⟩ := h
  have hq := wakeupLoop_same hb
  refine (pair_of_body (by exact hidle) ha (SameCpu.trans ?_ (schedule_same hc)) h).of_same
    ⟨rfl, rfl, rfl, rfl, rfl, rfl⟩
  exact ⟨hq.lockCount, hq.idle, hq.current, hq.enableInts, hq.interrupts, hq.switched⟩

/-- `semaphore_acquire` between its locks: it may block, but keeps the processor until the spin lock is free again. -/
theorem acquireSection_same {i : Nat} (hcount : s.lockCount ≠ 0) (hints : s.interrupts = false)
    (h : acquireSection s i = .ok s') : SameCpu s s' := by
  rw [acquireSection] at h
  split at h
  · rw [pure_eq_ok] at h
    subst h
    exact ⟨rfl, rfl, rfl, rfl, rfl, rfl⟩
  · simp only [bind_eq_ok] at h
    obtain ⟨a, ha, t, -, b, hb, c, hc, h⟩ := h
    refine (pair_of_body ?_ ha ((rawTaskBlock_same hb).trans (schedule_same hc)) h).same hcount hints
    exact fun h0 => absurd h0 hcount

theorem releaseSection_same {i : Nat} (hcount : s.lockCount ≠ 0) (hints : s.interrupts = false)
    (h : releaseSection s i = .ok s') : SameCpu s s' := by
  rw [releaseSection] at h
  split at h
  · simp only [bind_eq_ok] at h
    obtain ⟨a, ha, b, hb, h⟩ := h
    have ha' := schedulerLock_eq ha
    have hcount' : a.lockCount ≠ 0 := by
      rw [ha']
      exact Nat.succ_ne_zero _
    have hb' := (taskUnblockNext_pair (fun h0 => absurd h0 hcount') hb).same hcount' (by rw [ha'])
    refine (pair_of_body ?_ ha hb' h).same hcount hints
    exact fun h0 => absurd h0 hcount
  · rw [pure_eq_ok] at h
    subst h
    exact ⟨rfl, rfl, rfl, rfl, rfl, rfl⟩

/-- A semaphore operation: its body runs between `spin_lock` and `spin_unlock`. -/
theorem spin_pair {i : Nat} {a b : Sched} (hidle : s.lockCount = 0 → s.idle = none) (hlock : spinLock s i = .ok a)
    (hbody : a.lockCount ≠ 0 → a.interrupts = false → SameCpu a b) (hunlock : spinUnlock b i = .ok s') :
    Pair s s' := by
  simp only [spinLock, bind_eq_ok, pure_eq_ok] at hlock
  obtain ⟨c, hc, -, -, rfl⟩ := hlock
  simp only [spinUnlock, bind_eq_ok] at hunlock
  obtain ⟨-, -, hunlock⟩ := hunlock
  have hc' := schedulerLock_eq hc
  have hb := hbody (by rw [hc']; exact Nat.succ_ne_zero _) (by rw [hc'])
  refine pair_of_body hidle hc ?_ hunlock
  exact ⟨hb.lockCount, hb.idle, hb.current, hb.enableInts, hb.interrupts, hb.switched⟩

theorem semaphoreAcquire_pair {i : Nat} (hidle : s.lockCount = 0 → s.idle = none)
    (h : semaphoreAcquire s i = .ok s') : Pair s s' := by
  simp only [semaphoreAcquire, bind_eq_ok] at h
  obtain ⟨a, ha, b, hb, -, -, h⟩ := h
  exact spin_pair hidle ha (fun hcount hints => acquireSection_same hcount hints hb) h

theorem semaphoreRelease_pair {i : Nat} (hidle : s.lockCount = 0 → s.idle = none)
    (h : semaphoreRelease s i = .ok s') : Pair s s' := by
  simp only [semaphoreRelease, bind_eq_ok] at h
  obtain ⟨a, ha, b, hb, h⟩ := h
  exact spin_pair hidle ha (fun hcount hints => releaseSection_same hcount hints hb) h

/-- The operations that leave the locks of their context as they find them. -/
def Composite : SchedOp → Prop
  | .yield | .taskBlock _ _ | .taskUnblockNext _ | .taskSleepUntil _ _ | .taskSleepMiliseconds _ | .semaphoreAcquire _
  | .semaphoreRelease _ | .taskAdd _ | .tick => True
  | .flags _ | .schedulerLock | .schedulerUnlock | .taskingEnable | .taskExit | .idleWake => False

/-- The operation calls `scheduler_lock`. -/
def locks (s : Sched) : SchedOp → Bool
  | .schedulerLock | .yield | .taskBlock _ _ | .taskUnblockNext _ | .taskSleepMiliseconds _ | .semaphoreAcquire _
  | .semaphoreRelease _ | .taskAdd _ => true
  | .taskSleepUntil seen target => ! decide (target ≤ seen)
  | .tick => s.schedulerReady
  | .flags _ | .schedulerUnlock | .taskingEnable | .taskExit | .idleWake => false

/-- **The composite operations are matched pairs**, or do not lock at all. -/
theorem schedStep_pair {op : SchedOp} (hop : Composite op) (hidle : s.lockCount = 0 → s.idle = none)
    (h : schedStep s op = .ok s') : locks s op = true ∧ Pair s s' ∨ locks s op = false ∧ SameCpu s s' := by
  cases op with
  | yield => exact .inl ⟨rfl, yield_pair hidle h⟩
  | taskBlock q reason => exact .inl ⟨rfl, taskBlock_pair hidle h⟩
  | taskUnblockNext q => exact .inl ⟨rfl, taskUnblockNext_pair hidle h⟩
  | taskSleepUntil seen target =>
    rw [schedStep] at h
    by_cases hlater : target ≤ seen
    · rw [taskSleepUntil, if_pos hlater, pure_eq_ok] at h
      subst h
      exact .inr ⟨by simp [locks, hlater], .refl s⟩
    · exact .inl ⟨by simp [locks, hlater], taskSleepUntil_pair hidle hlater h⟩
  | taskSleepMiliseconds time => exact .inl ⟨rfl, taskSleepMiliseconds_pair hidle h⟩
  | semaphoreAcquire i => exact .inl ⟨rfl, semaphoreAcquire_pair hidle h⟩
  | semaphoreRelease i => exact .inl ⟨rfl, semaphoreRelease_pair hidle h⟩
  | taskAdd t => exact .inl ⟨rfl, taskAdd_pair hidle h⟩
  | tick =>
    rw [schedStep] at h
    by_cases hready : s.schedulerReady = true
    · exact .inl ⟨hready, tick_pair hidle hready h⟩
    · have hready : s.schedulerReady = false := by simpa using hready
      rw [irq0Handler, schedulerWakeup, if_pos hready, pure_eq_ok] at h
      subst h
      exact .inr ⟨hready, rfl, rfl, rfl, rfl, rfl, rfl⟩
  | flags b => exact absurd hop id
  | schedulerLock => exact absurd hop id
  | schedulerUnlock => exact absurd hop id
  | taskingEnable => exact absurd hop id
  | taskExit => exact absurd hop id
  | idleWake => exact absurd hop id

/-- `task_exit` ends the section of its task without an unlock. -/
theorem taskExit_ended (hidle : s.idle = none) (h : taskExit s = .ok s') : Ended s s' := by
  simp only [taskExit, bind_eq_ok, pure_eq_ok] at h
  obtain ⟨-, -, t, -, -, -, -, -, r, hr, rfl⟩ := h
  exact (rawSchedule_ended (by exact hidle) hr).congr rfl rfl rfl

/-- `tasking_enable` starts the first task. -/
theorem taskingEnable_eq (h : taskingEnable s = .ok s') (hidle : s.idle = none) : s'.lockCount = 0 ∧ s'.idle = none ∧
    s'.switched = s.switched ∧ (∃ t, s'.current = some t) ∧
      (s.enableInts = false → s'.interrupts = false ∧ s'.enableInts = false) := by
  simp only [taskingEnable, bind_eq_ok, assert_eq_ok] at h
  obtain ⟨-, -, -, -, ⟨o, a⟩, ha, h⟩ := h
  have hsame := taskDequeue_same ha
  cases o with
  | none => simp at h
  | some t =>
    simp only [bind_eq_ok, assert_eq_ok, restoreTask, pure_eq_ok] at h
    obtain ⟨-, -, -, hcount, -, ⟨-, -, -, -, rfl⟩, rfl⟩ := h
    have hints : a.enableInts = s.enableInts := hsame.enableInts
    rw [afterSchedule, unlockTail]
    split
    · split
      · rename_i he
        have he : a.enableInts = true := he
        exact ⟨hcount, hsame.idle.trans hidle, hsame.switched, ⟨t, rfl⟩, fun hf => by simp [hints, hf] at he⟩
      · exact ⟨hcount, hsame.idle.trans hidle, hsame.switched, ⟨t, rfl⟩, fun hf => ⟨hsame.interrupts, hints.trans hf⟩⟩
    · exact ⟨hcount, hsame.idle.trans hidle, hsame.switched, ⟨t, rfl⟩, fun hf => ⟨hsame.interrupts, hints.trans hf⟩⟩

end Composite

end Myunix.Task
