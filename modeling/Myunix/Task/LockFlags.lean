import Myunix.Task.LockDepth

/-!
# The interrupt flag across `scheduler_lock` and `scheduler_unlock`

An outermost `scheduler_lock` notes in the global `enable_ints` that interrupts were on, and the end of an outermost
`scheduler_unlock` turns them on again. Between the two the processor may have passed to another task, which then ends
its own `scheduler_unlock` and takes the note.

`FlagWorld` remembers for each task the flag before the pair it is in, and logs the flag before and after each finished
pair. `flag_runs_restore` says that every pair restores the flag as long as the processor only passes between tasks
that are in pairs with the same flag; `preemptRun_enables` is a run where a task is preempted with interrupts off and
comes back with interrupts on.
-/

namespace Myunix.Task

open Lib

/-- The scheduler, and the interrupt flags of its tasks. -/
structure FlagWorld where
  sched : Sched
  /-- The flag before the outermost `scheduler_lock` of the pair that the task is in. -/
  before : TaskId → Option Bool
  /-- The finished pairs: the task, its flag before and its flag after. -/
  log : List (TaskId × Bool × Bool)

/-- The running task starts a pair if the operation locks an unlocked scheduler. -/
def opened (x : FlagWorld) (op : SchedOp) : TaskId → Option Bool :=
  match x.sched.current with
  | some t =>
    if x.sched.lockCount = 0 ∧ locks x.sched op = true then Function.update x.before t (some x.sched.interrupts)
    else x.before
  | none => x.before

/-- A task that runs with the scheduler unlocked has finished its pair. -/
def closed (s : Sched) (before : TaskId → Option Bool) (log : List (TaskId × Bool × Bool)) : FlagWorld :=
  match s.current with
  | some u =>
    match before u with
    | some f =>
      if s.lockCount = 0 then ⟨s, Function.update before u none, log ++ [(u, f, s.interrupts)]⟩ else ⟨s, before, log⟩
    | none => ⟨s, before, log⟩
  | none => ⟨s, before, log⟩

/-- One operation, with the task that runs after it. -/
def flagStep (x : FlagWorld) (e : SchedOp × Option TaskId) : Kernel FlagWorld := do
  let s ← schedStep x.sched e.1
  return closed s (opened x e.1) x.log

/-- The interleaving of a run: each operation is allowed, and the task named with it is the one that runs next. -/
def Interleaves (x : FlagWorld) (e : SchedOp × Option TaskId) : Prop :=
  Legal x.sched e.1 ∧ ∀ s, schedStep x.sched e.1 = .ok s → s.current = e.2

/-- The flag before the pair of the running context; outside every pair, the flag itself. -/
def sectionFlag (x : FlagWorld) : Bool :=
  match context x.sched with
  | some t => (x.before t).getD x.sched.interrupts
  | none => false

/-- The processor passes only between tasks in pairs with the same flag. A task that has not run yet is in none: its
interrupts are off. -/
def Alike (x : FlagWorld) (e : SchedOp × Option TaskId) : Prop :=
  ∀ u, e.2 = some u → context x.sched ≠ some u → (x.before u).getD false = sectionFlag x

/-! ## The invariant -/

/-- A task off the processor: it is in a pair if it comes back to `switch_task`, and only then unless it has ended. -/
def Away (s : Sched) (before : TaskId → Option Bool) (u : TaskId) : Prop :=
  (s.switched u = true → before u ≠ none) ∧
    (before u ≠ none → s.switched u = true ∨ u ∈ s.tasks ∧ s.state u = .terminated)

theorem Away.congr {s : Sched} {before before' : TaskId → Option Bool} {u : TaskId} (h : Away s before u)
    (hu : before' u = before u) : Away s before' u := by
  rw [Away, hu]; exact h

/-- **The invariant of the flags.** -/
structure FlagSound (x : FlagWorld) (L : QueuePtr → List TaskId) (c : Cpu) : Prop where
  sound : Sound x.sched L c
  restored : ∀ p ∈ x.log, p.2.2 = p.2.1
  /-- Inside a pair `enable_ints` is the flag before it. -/
  inside : ∀ t, context x.sched = some t → x.sched.lockCount ≠ 0 → x.before t = some x.sched.enableInts
  outside : x.sched.lockCount = 0 → x.sched.enableInts = false
  running : ∀ t, x.sched.lockCount = 0 → x.sched.current = some t → x.before t = none
  away : ∀ u, context x.sched ≠ some u → Away x.sched x.before u

section Step

variable {x : FlagWorld} {s' : Sched} {L L' : QueuePtr → List TaskId} {c c' : Cpu} {op : SchedOp}

/-- A task that has ended stays so. -/
theorem Stepped.stays_terminated {s : Sched} {u : TaskId} (h : Stepped s L c op s' L' c')
    (hu : u ∈ s.tasks ∧ s.state u = .terminated) : u ∈ s'.tasks ∧ s'.state u = .terminated := by
  refine ⟨?_, (h.terminated u hu.1).2 (.inl hu.2)⟩
  rw [h.tasks]
  cases op <;> simp [opTasks, hu.1]

/-- The task that runs has not ended. -/
theorem Sound.running_state {s : Sched} {u : TaskId} (h : Sound s L c) (hu : s.current = some u) :
    s.state u = .running := by
  have hplaced := h.placed u
  rw [h.task_eq, hu] at hplaced
  exact hplaced.of_run.1

/-- Outside every pair of the running task nothing is closed. -/
theorem closed_eq {s : Sched} {before : TaskId → Option Bool} {log : List (TaskId × Bool × Bool)}
    (h : ∀ t, s.lockCount = 0 → s.current = some t → before t = none) : closed s before log = ⟨s, before, log⟩ := by
  unfold closed
  split
  · rename_i u hu
    split
    · rename_i f hf
      refine if_neg fun h0 => ?_
      rw [h u h0 hu] at hf
      cases hf
    · rfl
  · rfl

/-- The running task has finished a pair. -/
theorem closed_some {s : Sched} {before : TaskId → Option Bool} {log : List (TaskId × Bool × Bool)} {u : TaskId}
    {f : Bool} (hcur : s.current = some u) (hf : before u = some f) (hcount : s.lockCount = 0) :
    closed s before log = ⟨s, Function.update before u none, log ++ [(u, f, s.interrupts)]⟩ := by
  simp only [closed, hcur, hf, if_pos hcount]

/-- A task that is away before and after a step which does not touch it. -/
theorem FlagSound.away_other (h : FlagSound x L c) (hstep : Stepped x.sched L c op s' L' c') {v : TaskId}
    (hv : context x.sched ≠ some v) (hsw : s'.switched v = x.sched.switched v) : Away s' x.before v := by
  obtain ⟨h1, h2⟩ := h.away v hv
  rw [Away, hsw]
  exact ⟨h1, fun hb => (h2 hb).imp_right hstep.stays_terminated⟩

/-- A step that stays in its context and its section. -/
theorem FlagSound.of_same (h : FlagSound x L c) (hstep : Stepped x.sched L c op s' L' c')
    (hcount : s'.lockCount = 0 ↔ x.sched.lockCount = 0) (hidle : s'.idle = x.sched.idle)
    (hcur : s'.current = x.sched.current) (hints : s'.enableInts = x.sched.enableInts)
    (hsw : s'.switched = x.sched.switched) : FlagSound (closed s' x.before x.log) L' c' := by
  have hctx : context s' = context x.sched := by simp [context, hidle, hcur]
  have hrunning : ∀ t, s'.lockCount = 0 → s'.current = some t → x.before t = none := by
    rw [hcount, hcur]; exact h.running
  rw [closed_eq hrunning]
  refine ⟨hstep.sound, h.restored, ?_, ?_, hrunning, fun u hu => ?_⟩
  · rw [hctx, Ne, hcount, hints]; exact h.inside
  · rw [hcount, hints]; exact h.outside
  · exact h.away_other hstep (by rw [← hctx]; exact hu) (by rw [hsw])

/-- The context of a steady state is a task that has been added. -/
theorem Sound.context_mem {s : Sched} {t : TaskId} (h : Sound s L c) (hctx : context s = some t) : t ∈ s.tasks := by
  cases c with
  | boot => simp [context, h.cpu.2.1, h.cpu.2.2] at hctx
  | run u =>
    obtain rfl : u = t := by simpa [context, h.cpu.2.1, h.cpu.2.2] using hctx
    exact (h.placed u).of_run.2.2
  | idle u =>
    obtain rfl : u = t := by simpa [context, h.cpu.2.2] using hctx
    exact h.idle u rfl

/-- The pair of the task that runs now has ended, and its flag is what it was before the pair. -/
theorem FlagSound.ends_pair {before : TaskId → Option Bool} {u : TaskId} {f : Bool} (h : FlagSound x L c)
    (hsound : Sound s' L' c') (hcur : s'.current = some u) (hidle : s'.idle = none) (hcount : s'.lockCount = 0)
    (he : s'.enableInts = false) (hf : before u = some f) (hints : s'.interrupts = f)
    (haway : ∀ v, v ≠ u → Away s' before v) : FlagSound (closed s' before x.log) L' c' := by
  have hctx : context s' = some u := by simp [context, hidle, hcur]
  rw [closed_some hcur hf hcount]
  refine ⟨hsound, List.forall_mem_append.2 ⟨h.restored, List.forall_mem_singleton.2 hints⟩,
    fun _ _ h0 => absurd hcount h0, fun _ => he, fun v _ hv => ?_, fun v hv => ?_⟩
  · obtain rfl : u = v := by simpa [hcur] using hv
    exact Function.update_self ..
  · have hvu : v ≠ u := by
      rintro rfl
      exact hv hctx
    exact (haway v hvu).congr (Function.update_of_ne hvu ..)

/-- The task that runs now is in no pair. -/
theorem FlagSound.no_pair {before : TaskId → Option Bool} {u : TaskId} (h : FlagSound x L c) (hsound : Sound s' L' c')
    (hcur : s'.current = some u) (hcount : s'.lockCount = 0) (he : s'.enableInts = false) (hnone : before u = none)
    (haway : ∀ v, Away s' before v) : FlagSound (closed s' before x.log) L' c' := by
  have hrunning : ∀ v, s'.lockCount = 0 → s'.current = some v → before v = none := by
    intro v _ hv
    obtain rfl : u = v := by simpa [hcur] using hv
    exact hnone
  rw [closed_eq hrunning]
  exact ⟨hsound, h.restored, fun _ _ h0 => absurd hcount h0, fun _ => he, hrunning, fun v _ => haway v⟩

/-- **The end of an outermost section** of the context `t`, in a pair with the flag `f`. -/
theorem Ended.flags {m : Sched} {before : TaskId → Option Bool} {t : TaskId} {f : Bool} (hended : Ended m s')
    (h : FlagSound x L c) (hstep : Stepped x.sched L c op s' L' c') (hctx : context x.sched = some t)
    (hm : context m = some t) (hints : m.enableInts = f) (hsw : m.switched = x.sched.switched)
    (hbefore : before = Function.update x.before t (some f))
    (halike : ∀ u, s'.current = some u → u ≠ t → (x.before u).getD false = f) :
    FlagSound (closed s' before x.log) L' c' := by
  have hother : ∀ u, u ≠ t → before u = x.before u := fun u hu => by rw [hbefore, Function.update_of_ne hu]
  have hself : before t = some f := by rw [hbefore, Function.update_self]
  have hne : ∀ v, v ≠ t → context x.sched ≠ some v := by
    intro v hv
    rw [hctx]
    simpa using hv.symm
  cases hended with
  | stays count idle current ints switched =>
    refine h.ends_pair hstep.sound (current.trans hm) idle count ints.2 hself (ints.1.trans hints) fun v hv => ?_
    exact (h.away_other hstep (hne v hv) (by rw [switched, hsw])).congr (hother v hv)
  | @switches t' u leaves ne count idle current back fresh left =>
    obtain rfl : t' = t := by simpa [hm] using leaves.symm
    have haway : ∀ v, Away s' before v := by
      intro v
      rcases eq_or_ne v t' with rfl | hv
      · refine ⟨fun _ => by simp [hself], fun _ => ?_⟩
        rcases left with hleft | ⟨-, hterm⟩
        · exact .inl (by rw [hleft, Function.update_self])
        · refine .inr ⟨?_, hterm⟩
          have hmem := h.sound.context_mem hctx
          rw [hstep.tasks]
          cases op <;> simp [opTasks, hmem]
      · refine (h.away_other hstep (hne v hv) ?_).congr (hother v hv)
        rcases left with hleft | ⟨hleft, -⟩
        · rw [hleft, Function.update_of_ne hv, hsw]
        · rw [hleft, hsw]
    have hflag := halike u current ne
    cases hback : m.switched u with
    | true =>
      -- `u` was left in its own `scheduler_unlock`, in a pair with the same flag
      have hin : x.before u ≠ none := (h.away u (hne u ne)).1 (by rw [← hsw]; exact hback)
      obtain ⟨g, hg⟩ := Option.ne_none_iff_exists'.1 hin
      rw [hg, Option.getD_some] at hflag
      subst hflag
      exact h.ends_pair hstep.sound current idle count (back hback).2 ((hother u ne).trans hg)
        ((back hback).1.trans hints) fun v _ => haway v
    | false =>
      -- `u` starts at its entry: the pair that ends must not leave a note behind
      have hnone : x.before u = none := by
        by_contra hin
        rcases (h.away u (hne u ne)).2 hin with hsw' | hterm
        · simp [← hsw, hback] at hsw'
        · have hrun := hstep.sound.running_state current
          simp [(hstep.stays_terminated hterm).2] at hrun
      rw [hnone, Option.getD_none] at hflag
      exact h.no_pair hstep.sound current count ((fresh hback).2.trans (hints.trans hflag.symm))
        ((hother u ne).trans hnone) haway
  | @idles t' leaves count idle current ints switched =>
    obtain rfl : t' = t := by simpa [hm] using leaves.symm
    have hctx' : context s' = some t' := by simp [context, idle]
    rw [closed_eq (by simp [current])]
    refine ⟨hstep.sound, h.restored, fun u hu _ => ?_, fun h0 => ?_, by simp [current], fun v hv => ?_⟩
    · obtain rfl : t' = u := by simpa [hctx'] using hu
      show before t' = some s'.enableInts
      rw [hself, ints.2, hints]
    · rw [count] at h0
      cases h0
    · have hv : v ≠ t' := by
        rintro rfl
        exact hv hctx'
      exact (h.away_other hstep (hne v hv) (by rw [switched, hsw])).congr (hother v hv)

/-- A section of `kmain` ends. -/
theorem Ended.flags_boot {m : Sched} (hended : Ended m s') (h : FlagSound x L c)
    (hstep : Stepped x.sched L c op s' L' c') (hctx : context x.sched = none) (hm : context m = none)
    (hsw : m.switched = x.sched.switched) : FlagSound (closed s' x.before x.log) L' c' := by
  cases hended with
  | stays count idle current ints switched =>
    have hcur : s'.current = none := current.trans hm
    rw [closed_eq (by simp [hcur])]
    refine ⟨hstep.sound, h.restored, fun _ _ h0 => absurd count h0, fun _ => ints.2, by simp [hcur], fun v _ => ?_⟩
    exact h.away_other hstep (by simp [hctx]) (by rw [switched, hsw])
  | switches leaves ne count idle current back fresh left => simp [hm] at leaves
  | idles leaves count idle current ints switched => simp [hm] at leaves

theorem opened_eq (h : x.sched.lockCount ≠ 0 ∨ locks x.sched op = false) : opened x op = x.before := by
  unfold opened
  split
  · apply if_neg
    intro hopen
    rcases h with h | h
    · exact h hopen.1
    · simp [h] at hopen
  · rfl

theorem opened_some {t : TaskId} (hcur : x.sched.current = some t) (hcount : x.sched.lockCount = 0)
    (hlocks : locks x.sched op = true) : opened x op = Function.update x.before t (some x.sched.interrupts) := by
  simp only [opened, hcur]
  exact if_pos ⟨hcount, hlocks⟩

theorem opened_other {v : TaskId} (hv : x.sched.current ≠ some v) : opened x op v = x.before v := by
  cases hcur : x.sched.current with
  | none => simp only [opened, hcur]
  | some t =>
    have hvt : v ≠ t := by
      rintro rfl
      exact hv hcur
    simp only [opened, hcur]
    split
    · exact Function.update_of_ne hvt ..
    · rfl

/-- The section that a context is in ends. -/
theorem Ended.flags_inside (hended : Ended x.sched s') (h : FlagSound x L c)
    (hstep : Stepped x.sched L c op s' L' c') (hcount : x.sched.lockCount ≠ 0) (ha : Alike x (op, s'.current)) :
    FlagSound (closed s' x.before x.log) L' c' := by
  cases hctx : context x.sched with
  | none => exact hended.flags_boot h hstep hctx hctx rfl
  | some t =>
    have hin := h.inside t hctx hcount
    refine hended.flags h hstep hctx hctx rfl rfl ?_ fun u hu hne => ?_
    · rw [← hin, Function.update_eq_self]
    · rw [ha u hu (by rw [hctx]; simpa using hne.symm), sectionFlag, hctx]
      simp only [hin, Option.getD_some]

/-- A call that is a section of its own. -/
theorem Ended.flags_outer (hended : Ended { x.sched with enableInts := x.sched.enableInts || x.sched.interrupts } s')
    (h : FlagSound x L c) (hstep : Stepped x.sched L c op s' L' c') (hcount : x.sched.lockCount = 0)
    (hlocks : locks x.sched op = true) (ha : Alike x (op, s'.current)) :
    FlagSound (closed s' (opened x op) x.log) L' c' := by
  have hctx := context_of_idle (h.sound.idle_eq_none hcount)
  cases hcur : x.sched.current with
  | none =>
    rw [hcur] at hctx
    rw [show opened x op = x.before by simp only [opened, hcur]]
    exact hended.flags_boot h hstep hctx hctx rfl
  | some t =>
    rw [hcur] at hctx
    rw [opened_some hcur hcount hlocks]
    refine hended.flags h hstep hctx hctx ?_ rfl rfl fun u hu hne => ?_
    · simp [h.outside hcount]
    · rw [ha u hu (by rw [hctx]; simpa using hne.symm), sectionFlag, hctx]
      simp only [h.running t hcount hcur, Option.getD_none]

/-- `scheduler_lock` starts a pair. -/
theorem schedulerLock_flags (h : FlagSound x L c) (hstep : Stepped x.sched L c .schedulerLock s' L' c')
    (hrun : schedulerLock x.sched = .ok s') : FlagSound (closed s' (opened x .schedulerLock) x.log) L' c' := by
  have hs' := schedulerLock_eq hrun
  have hpos : s'.lockCount ≠ 0 := by
    rw [hs']
    exact Nat.succ_ne_zero _
  by_cases hcount : x.sched.lockCount = 0
  · have hctx' := context_of_idle (h.sound.idle_eq_none hcount)
    have hctx : context s' = x.sched.current := by
      refine Eq.trans ?_ hctx'
      rw [hs']
      rfl
    have hints : s'.enableInts = x.sched.interrupts := by
      rw [hs']
      simp [hcount, h.outside hcount]
    have hsw : s'.switched = x.sched.switched := by rw [hs']
    rw [closed_eq fun _ h0 => absurd h0 hpos]
    refine ⟨hstep.sound, h.restored, fun t ht _ => ?_, fun h0 => absurd h0 hpos, fun _ h0 => absurd h0 hpos,
      fun v hv => ?_⟩
    · show opened x .schedulerLock t = some s'.enableInts
      rw [opened_some (hctx.symm.trans ht) hcount rfl, Function.update_self, hints]
    · have hv : x.sched.current ≠ some v := by
        rw [← hctx]; exact hv
      exact (h.away_other hstep (by rw [hctx']; exact hv) (by rw [hsw])).congr (opened_other hv)
  · rw [opened_eq (.inl hcount)]
    refine h.of_same hstep ⟨fun h0 => absurd h0 hpos, fun h0 => absurd h0 hcount⟩ ?_ ?_ ?_ ?_
    · rw [hs']
    · rw [hs']
    · rw [hs']
      exact if_neg hcount
    · rw [hs']

/-- `tasking_enable` starts the first task. -/
theorem taskingEnable_flags (h : FlagSound x L c) (hstep : Stepped x.sched L c .taskingEnable s' L' c')
    (hcount : x.sched.lockCount = 0) (hboot : context x.sched = none) (hrun : taskingEnable x.sched = .ok s')
    (ha : Alike x (.taskingEnable, s'.current)) : FlagSound (closed s' x.before x.log) L' c' := by
  obtain ⟨hcount', hidle', hsw, ⟨u, hu⟩, hints⟩ := taskingEnable_eq hrun (h.sound.idle_eq_none hcount)
  obtain ⟨hoff, he⟩ := hints (h.outside hcount)
  have haway : ∀ v, Away s' x.before v := fun v => h.away_other hstep (by simp [hboot]) (by rw [hsw])
  have hflag : (x.before u).getD false = false := by
    rw [ha u hu (by simp [hboot]), sectionFlag, hboot]
  cases hb : x.before u with
  | none => exact h.no_pair hstep.sound hu hcount' he hb haway
  | some g =>
    rw [hb, Option.getD_some] at hflag
    subst hflag
    exact h.ends_pair hstep.sound hu hidle' hcount' he hb hoff fun v _ => haway v

/-- **One operation** keeps the invariant, if the processor passes between tasks with the same flag. -/
theorem flagStep_sound {e : SchedOp × Option TaskId} (h : FlagSound x L c) (hi : Interleaves x e) (ha : Alike x e) :
    ∃ x' L' c', flagStep x e = .ok x' ∧ FlagSound x' L' c' := by
  obtain ⟨op, next⟩ := e
  obtain ⟨hl, hnext⟩ := hi
  obtain ⟨s', L', c', hrun, hstep⟩ := schedStep_spec h.sound hl
  obtain rfl := hnext s' hrun
  refine ⟨closed s' (opened x op) x.log, L', c', by rw [flagStep, hrun]; rfl, ?_⟩
  have hidle : x.sched.lockCount = 0 → x.sched.idle = none := h.sound.idle_eq_none
  have hpair : Composite op → FlagSound (closed s' (opened x op) x.log) L' c' := by
    intro hop
    obtain ⟨hlocks, hp⟩ | ⟨hlocks, same⟩ := schedStep_pair hop hidle hrun
    · cases hp with
      | nested inside count idle current ints switched =>
        rw [opened_eq (.inl inside)]
        exact h.of_same hstep (by rw [count]) idle current ints.2 switched
      | outer outside ended => exact ended.flags_outer h hstep outside hlocks ha
    · rw [opened_eq (.inr hlocks)]
      exact h.of_same hstep (by rw [same.lockCount]) same.idle same.current same.enableInts same.switched
  cases op with
  | flags b =>
    rw [schedStep, Except.ok.injEq] at hrun
    subst hrun
    rw [opened_eq (.inr rfl)]
    exact h.of_same hstep Iff.rfl rfl rfl rfl rfl
  | schedulerLock => exact schedulerLock_flags h hstep hrun
  | schedulerUnlock =>
    have hpos : lockBase x.sched < x.sched.lockCount := hl
    rw [opened_eq (.inr rfl)]
    by_cases h1 : x.sched.lockCount = 1
    · have hidle' : x.sched.idle = none := by
        by_contra hne
        rw [h1, lockBase, if_neg hne] at hpos
        omega
      exact (schedulerUnlock_outer hrun h1 hidle').flags_inside h hstep (by omega) ha
    · obtain ⟨-, rfl⟩ := schedulerUnlock_inner hrun h1
      refine h.of_same hstep ?_ rfl rfl rfl rfl
      show x.sched.lockCount - 1 = 0 ↔ _
      omega
  | taskingEnable =>
    obtain ⟨hready, h0, -⟩ := hl
    have hboot : context x.sched = none := by
      cases c with
      | boot => simp [context, h.sound.cpu.2.1, h.sound.cpu.2.2]
      | run t => simp [h.sound.cpu.1] at hready
      | idle t => simp [h.sound.cpu.1] at hready
    rw [opened_eq (.inr rfl)]
    exact taskingEnable_flags h hstep h0 hboot hrun ha
  | taskExit =>
    obtain ⟨hcur, h1⟩ := hl
    obtain ⟨t, rfl, -⟩ := h.sound.eq_run hcur
    rw [opened_eq (.inr rfl)]
    exact (taskExit_ended h.sound.cpu.2.2 hrun).flags_inside h hstep (by omega) ha
  | idleWake =>
    obtain ⟨hne, h1⟩ := hl
    obtain ⟨t, rfl⟩ := h.sound.eq_idle hne
    rw [opened_eq (.inr rfl)]
    exact (idleWake_ended h1 h.sound.cpu.2.1 hrun).flags_inside h hstep (by omega) ha
  | yield => exact hpair trivial
  | taskBlock q reason => exact hpair trivial
  | taskUnblockNext q => exact hpair trivial
  | taskSleepUntil seen target => exact hpair trivial
  | taskSleepMiliseconds time => exact hpair trivial
  | semaphoreAcquire i => exact hpair trivial
  | semaphoreRelease i => exact hpair trivial
  | taskAdd t => exact hpair trivial
  | tick => exact hpair trivial

end Step

/-! ## Whole runs -/

/-- No task has started. -/
def flagBoot (counts : Nat → Word) : FlagWorld := ⟨boot counts, fun _ => none, []⟩

/-- **The interrupt flag is restored** in every run in which the processor only passes between tasks that are in pairs
with the same flag. -/
theorem flag_runs_restore (counts : Nat → Word) (run : List (SchedOp × Option TaskId))
    (h : StepsMeet flagStep (fun x e => Interleaves x e ∧ Alike x e) (flagBoot counts) run) :
    ∃ x, runSteps flagStep (flagBoot counts) run = .ok x ∧ ∀ t before after, (t, before, after) ∈ x.log →
      after = before := by
  have hstart : FlagSound (flagBoot counts) (fun _ => []) .boot :=
    ⟨boot_sound counts, fun _ hp => absurd hp List.not_mem_nil, fun _ _ h0 => absurd rfl h0, fun _ => rfl,
      fun _ _ _ => rfl, fun _ _ => ⟨fun hs => absurd hs (by simp [flagBoot, boot]), fun hb => absurd rfl hb⟩⟩
  obtain ⟨x, hrun, L, c, hx⟩ := runSteps_inv (I := fun _ x => ∃ L c, FlagSound x L c)
    (fun _ x e hI (hok : Interleaves x e ∧ Alike x e) => by
      obtain ⟨L, c, hx⟩ := hI
      obtain ⟨x', L', c', hstep, hx'⟩ := flagStep_sound hx hok.1 hok.2
      exact ⟨x', hstep, L', c', hx'⟩)
    run [] ⟨_, _, hstart⟩ h
  exact ⟨x, hrun, fun t before after hp => hx.restored _ hp⟩

/-- Two tasks give up the processor in turn with interrupts off; then the first turns them on and locks. -/
def politeRun : List (SchedOp × Option TaskId) :=
  [(.taskAdd 1, none), (.taskAdd 2, none), (.taskingEnable, some 1), (.yield, some 2), (.yield, some 1),
    (.flags true, some 1), (.schedulerLock, some 1), (.schedulerUnlock, some 1)]

theorem politeRun_restores : ∃ x, runSteps flagStep (flagBoot fun _ => 0#32) politeRun = .ok x ∧
    ∀ t before after, (t, before, after) ∈ x.log → after = before := by
  apply flag_runs_restore _ _
  refine stepsMeet_cons ⟨⟨by simp [Legal, flagBoot, boot], fun s hs => ?_⟩, by simp [Alike]⟩ rfl ?_
  · cases hs; rfl
  refine stepsMeet_cons ⟨⟨show 2 ∉ [1] by decide, fun s hs => ?_⟩, by simp [Alike]⟩ rfl ?_
  · cases hs; rfl
  refine stepsMeet_cons ⟨⟨⟨rfl, rfl, by decide⟩, fun s hs => ?_⟩, fun u _ _ => ?_⟩ rfl ?_
  · cases hs; rfl
  · rfl
  refine stepsMeet_cons ⟨⟨rfl, fun s hs => ?_⟩, fun u hu _ => ?_⟩ rfl ?_
  · cases hs; rfl
  · cases hu; rfl
  refine stepsMeet_cons ⟨⟨rfl, fun s hs => ?_⟩, fun u hu _ => ?_⟩ rfl ?_
  · cases hs; rfl
  · cases hu; rfl
  refine stepsMeet_cons ⟨⟨rfl, fun s hs => ?_⟩, fun u hu hne => ?_⟩ rfl ?_
  · cases hs; rfl
  · cases hu; exact absurd rfl hne
  refine stepsMeet_cons ⟨⟨trivial, fun s hs => ?_⟩, fun u hu hne => ?_⟩ rfl ?_
  · cases hs; rfl
  · cases hu; exact absurd rfl hne
  refine stepsMeet_cons ⟨⟨show (0 : Nat) < 1 by decide, fun s hs => ?_⟩, fun u hu hne => ?_⟩ rfl trivial
  · cases hs; rfl
  · cases hu; exact absurd rfl hne

/-- A timer interrupt takes the processor from task 1, with interrupts off as in every interrupt handler. Task 2 turns
them on and yields. -/
def preemptRun : List (SchedOp × Option TaskId) :=
  [(.taskAdd 1, none), (.taskAdd 2, none), (.taskingEnable, some 1), (.tick, some 2), (.flags true, some 2),
    (.yield, some 1)]

/-- Task 1 is back in its interrupt handler, now with interrupts on. -/
theorem preemptRun_enables : StepsMeet flagStep Interleaves (flagBoot fun _ => 0#32) preemptRun ∧
    ∃ x, runSteps flagStep (flagBoot fun _ => 0#32) preemptRun = .ok x ∧ (1, false, true) ∈ x.log := by
  refine ⟨?_, _, rfl, by decide⟩
  refine stepsMeet_cons ⟨by simp [Legal, flagBoot, boot], fun s hs => by cases hs; rfl⟩ rfl ?_
  refine stepsMeet_cons ⟨show 2 ∉ [1] by decide, fun s hs => by cases hs; rfl⟩ rfl ?_
  refine stepsMeet_cons ⟨⟨rfl, rfl, by decide⟩, fun s hs => by cases hs; rfl⟩ rfl ?_
  refine stepsMeet_cons ⟨rfl, fun s hs => by cases hs; rfl⟩ rfl ?_
  refine stepsMeet_cons ⟨rfl, fun s hs => by cases hs; rfl⟩ rfl ?_
  exact stepsMeet_cons ⟨rfl, fun s hs => by cases hs; rfl⟩ rfl trivial

end Myunix.Task
