import Myunix.Task.Sched

/-!
# Where tasks are

`Placed` says where one task is: it runs, it is in exactly one queue with a state that fits the queue, or it is in
none and has terminated. A state is `Steady` when the queues are lists, every task is placed and the fields that say
what the processor does agree. `schedulerLock_spec` and `schedulerUnlock_spec` are the two ends of every locked
section; `rawSchedule_spec` is the context switch between them, which moves tasks between the processor and the ready
queue only (`Kept`).
-/

namespace Myunix.Task

open Lib

/-! ## Places -/

/-- The states of a task that waits for something other than the processor. -/
def Parked (v : TaskState) : Prop := v = .waiting ∨ v = .blocked ∨ v = .blockedLock

instance (v : TaskState) : Decidable (Parked v) := inferInstanceAs (Decidable (_ ∨ _))

/-- The states of the tasks in a queue. -/
def Fits (q : QueuePtr) (v : TaskState) : Prop := if q = .readyQueue then v = .ready else Parked v

theorem fits_ready {v : TaskState} : Fits .readyQueue v ↔ v = .ready := by simp [Fits]

theorem fits_parked {q : QueuePtr} {v : TaskState} (hq : q ≠ .readyQueue) : Fits q v ↔ Parked v := by simp [Fits, hq]

/-- **The place of a task**: the processor, one queue, or none. -/
inductive Placed (state : TaskId → TaskState) (tasks : List TaskId) (L : QueuePtr → List TaskId) (run : Option TaskId)
    (t : TaskId) : Prop
  | running (hrun : run = some t) (hstate : state t = .running) (hnone : ∀ q, t ∉ L q) (hadd : t ∈ tasks)
  | queued (q : QueuePtr) (hmem : t ∈ L q) (hone : ∀ q', t ∈ L q' → q' = q) (hfits : Fits q (state t))
      (hrun : run ≠ some t) (hadd : t ∈ tasks)
  | gone (hnone : ∀ q, t ∉ L q) (hrun : run ≠ some t) (hend : t ∈ tasks → state t = .terminated)

section Places

variable {state state' : TaskId → TaskState} {tasks tasks' : List TaskId} {L L' : QueuePtr → List TaskId}
  {run run' : Option TaskId} {t u : TaskId} {q : QueuePtr}

/-- A task that nothing has touched keeps its place. -/
theorem Placed.congr (h : Placed state tasks L run t) (hstate : state' t = state t) (hmem : ∀ q, t ∈ L' q ↔ t ∈ L q)
    (hrun : run' = some t ↔ run = some t) (hadd : t ∈ tasks' ↔ t ∈ tasks) : Placed state' tasks' L' run' t := by
  cases h with
  | running h1 h2 h3 h4 =>
    exact .running (hrun.2 h1) (hstate.trans h2) (fun q hq => h3 q ((hmem q).1 hq)) (hadd.2 h4)
  | queued q h1 h2 h3 h4 h5 =>
    refine .queued q ((hmem q).2 h1) (fun p hp => h2 p ((hmem p).1 hp)) ?_ (fun hr => h4 (hrun.1 hr)) (hadd.2 h5)
    rw [hstate]; exact h3
  | gone h1 h2 h3 =>
    exact .gone (fun q hq => h1 q ((hmem q).1 hq)) (fun hr => h2 (hrun.1 hr))
      fun ha => hstate.trans (h3 (hadd.1 ha))

/-- The running task. -/
theorem Placed.of_run (h : Placed state tasks L (some t) t) : state t = .running ∧ (∀ q, t ∉ L q) ∧ t ∈ tasks := by
  cases h with
  | running h1 h2 h3 h4 => exact ⟨h2, h3, h4⟩
  | queued q h1 h2 h3 h4 h5 => exact absurd rfl h4
  | gone h1 h2 h3 => exact absurd rfl h2

/-- A task that has left the processor. -/
theorem Placed.ne_running (h : Placed state tasks L none t) (ht : t ∈ tasks) : state t ≠ .running := by
  cases h with
  | running h1 h2 h3 h4 => simp at h1
  | queued q h1 h2 h3 h4 h5 =>
    intro hs
    rw [hs, Fits] at h3
    split at h3 <;> simp [Parked] at h3
  | gone h1 h2 h3 => simp [h3 ht]

/-- A task in a queue. -/
theorem Placed.of_mem (h : Placed state tasks L run t) (hq : t ∈ L q) :
    Fits q (state t) ∧ run ≠ some t ∧ t ∈ tasks ∧ ∀ q', t ∈ L q' → q' = q := by
  cases h with
  | running h1 h2 h3 h4 => exact absurd hq (h3 q)
  | queued p h1 h2 h3 h4 h5 =>
    obtain rfl := h2 q hq
    exact ⟨h3, h4, h5, h2⟩
  | gone h1 h2 h3 => exact absurd hq (h1 q)

/-- A task that is nowhere joins the queue `q` with state `v`; nobody else is touched. -/
theorem placed_join {v : TaskState} (h : ∀ u, u ≠ t → Placed state tasks L run u) (hnone : ∀ p, t ∉ L p)
    (hfits : Fits q v) (hadd : t ∈ tasks') (hrun : run' ≠ some t) (hruns : ∀ u, u ≠ t → (run' = some u ↔ run = some u))
    (htasks : ∀ u, u ≠ t → (u ∈ tasks' ↔ u ∈ tasks)) :
    ∀ u, Placed (Function.update state t v) tasks' (Function.update L q (L q ++ [t])) run' u := by
  intro u
  rcases eq_or_ne u t with rfl | hu
  · refine .queued q (Represents.mem_snoc.2 (.inr ⟨rfl, rfl⟩)) ?_ ?_ hrun hadd
    · exact fun p hp => (Represents.mem_snoc.1 hp).elim (fun hp => absurd hp (hnone p)) And.right
    · rw [Function.update_self]; exact hfits
  · exact (h u hu).congr (Function.update_of_ne hu ..) (by simp [Represents.mem_snoc, hu]) (hruns u hu) (htasks u hu)

/-- The running task joins a queue. -/
theorem placed_leave {v : TaskState} (h : ∀ u, Placed state tasks L (some t) u) (hfits : Fits q v) :
    ∀ u, Placed (Function.update state t v) tasks (Function.update L q (L q ++ [t])) none u := by
  obtain ⟨-, hnone, hadd⟩ := (h t).of_run
  exact placed_join (fun u _ => h u) hnone hfits hadd (by simp) (fun u hu => by simpa using hu.symm) fun _ _ => Iff.rfl

/-- The running task ends. -/
theorem placed_exit (h : ∀ u, Placed state tasks L (some t) u) :
    ∀ u, Placed (Function.update state t .terminated) tasks L none u := by
  intro u
  rcases eq_or_ne u t with rfl | hu
  · exact .gone (h u).of_run.2.1 (by simp) fun _ => Function.update_self ..
  · exact (h u).congr (Function.update_of_ne hu ..) (fun _ => Iff.rfl) (by simpa using hu.symm) Iff.rfl

/-- A new task becomes ready. -/
theorem placed_add (h : ∀ u, Placed state tasks L run u) (ht : t ∉ tasks) :
    ∀ u, Placed (Function.update state t .ready) (t :: tasks)
      (Function.update L .readyQueue (L .readyQueue ++ [t])) run u := by
  have hplace : (∀ q, t ∉ L q) ∧ run ≠ some t := by
    cases h t with
    | running h1 h2 h3 h4 => exact absurd h4 ht
    | queued q h1 h2 h3 h4 h5 => exact absurd h5 ht
    | gone h1 h2 h3 => exact ⟨h1, h2⟩
  exact placed_join (fun u _ => h u) hplace.1 (fits_ready.2 rfl) List.mem_cons_self hplace.2 (fun _ _ => Iff.rfl)
    fun u hu => by simp [hu]

/-- A queued task becomes ready; `L'` are the lists without it. -/
theorem placed_unblock (h : ∀ u, Placed state tasks L run u) (ht : t ∈ L q)
    (hL : ∀ p u, u ∈ L' p ↔ u ∈ L p ∧ u ≠ t) :
    ∀ u, Placed (Function.update state t .ready) tasks
      (Function.update L' .readyQueue (L' .readyQueue ++ [t])) run u := by
  obtain ⟨-, hrun, hadd, -⟩ := (h t).of_mem ht
  refine placed_join (fun u hu => ?_) (fun p hp => ((hL p t).1 hp).2 rfl) (fits_ready.2 rfl) hadd hrun
    (fun _ _ => Iff.rfl) fun _ _ => Iff.rfl
  exact (h u).congr rfl (by simp [hL, hu]) Iff.rfl Iff.rfl

/-- A queued task gets the free processor; `L'` are the lists without it. -/
theorem placed_dispatch (h : ∀ u, Placed state tasks L none u) (ht : t ∈ L q)
    (hL : ∀ p u, u ∈ L' p ↔ u ∈ L p ∧ u ≠ t) :
    ∀ u, Placed (Function.update state t .running) tasks L' (some t) u := by
  intro u
  obtain ⟨-, -, hadd, -⟩ := (h t).of_mem ht
  rcases eq_or_ne u t with rfl | hu
  · exact .running rfl (Function.update_self ..) (fun p hp => absurd rfl ((hL p u).1 hp).2) hadd
  · exact (h u).congr (Function.update_of_ne hu ..) (by simp [hL, hu]) (by simpa using hu.symm) Iff.rfl

end Places

/-! ## The queue operations -/

section Queues

variable {s : Sched} {L : QueuePtr → List TaskId} {off : List TaskId} {q : QueuePtr} {t : TaskId}

/-- `task_queue` puts a task that is nowhere at the end of a queue. -/
theorem taskQueue_spec (h : Represents s.links L off) (hints : s.interrupts = false) (hoff : t ∉ off)
    (ht : ∀ q, t ∉ L q) : ∃ links, taskQueue s q t = .ok { s with links := links } ∧
      Represents links (Function.update L q (L q ++ [t])) off := by
  have hnext := h.loose t hoff ht
  cases hfirst : (s.links.queues q).first with
  | none =>
    have hq := h.first_eq_none.1 hfirst
    have hlast : (s.links.queues q).last = none := by rw [h.last, hq]; rfl
    refine ⟨_, ?_, h.enqueue_nil hq hoff ht⟩
    simp [taskQueue, assert_pos, hints, hnext, hfirst, hlast, pure, Except.pure]
  | some first =>
    obtain ⟨rest, hq⟩ := h.first_eq_some.1 hfirst
    obtain ⟨last, hlast⟩ := List.getLast?_isSome.2 (show L q ≠ [] by simp [hq]) |> Option.isSome_iff_exists.1
    have hlast' : (s.links.queues q).last = some last := by rw [h.last]; exact hlast
    refine ⟨_, ?_, h.enqueue_snoc hlast hoff ht⟩
    simp [taskQueue, assert_pos, hints, hnext, hfirst, hlast', pure, Except.pure]

/-- `task_dequeue` of an empty queue. -/
theorem taskDequeue_nil (h : Represents s.links L off) (hints : s.interrupts = false) (hq : L q = []) :
    taskDequeue s q = .ok (none, s) := by
  simp [taskDequeue, assert_pos, hints, h.first_eq_none.2 hq, pure, Except.pure]

/-- `task_dequeue` takes the first task of a queue. -/
theorem taskDequeue_cons (h : Represents s.links L off) (hints : s.interrupts = false) {rest : List TaskId}
    (hq : L q = t :: rest) : ∃ links, taskDequeue s q = .ok (some t, { s with links := links }) ∧
      Represents links (Function.update L q rest) off := by
  have hfirst : (s.links.queues q).first = some t := h.first_eq_some.2 ⟨rest, hq⟩
  have hlk := h.linked q
  have hlast := h.last q
  have hd := h.dequeue hq
  rw [hq] at hlk hlast
  cases rest with
  | nil =>
    have hnext : s.links.next t = none := hlk.1
    refine ⟨_, ?_, hd⟩
    simp [taskDequeue, assert_pos, hints, hfirst, hnext, hlast, pure, Except.pure]
  | cons b rest =>
    have hnext : s.links.next t = some b := hlk.1
    refine ⟨_, ?_, hd⟩
    simp [taskDequeue, assert_pos, hints, hfirst, hnext, hlast, pure, Except.pure]

end Queues

/-! ## Steady states -/

/-- What the processor does. -/
inductive Cpu
  /-- `kmain` before `tasking_enable`. -/
  | boot
  | run (t : TaskId)
  /-- The idle loop in the `__schedule` of a task that has left the processor. -/
  | idle (t : TaskId)

namespace Cpu

/-- The task that runs. -/
def task : Cpu → Option TaskId
  | boot => none
  | run t => some t
  | idle _ => none

/-- The `scheduler_lock_count` outside every locked section. -/
def base : Cpu → Nat
  | boot => 0
  | run _ => 0
  | idle _ => 1

end Cpu

/-- The globals that say what the processor does. -/
def CpuIs (s : Sched) : Cpu → Prop
  | .boot => s.schedulerReady = false ∧ s.current = none ∧ s.idle = none
  | .run t => s.schedulerReady = true ∧ s.current = some t ∧ s.idle = none
  | .idle t => s.schedulerReady = true ∧ s.current = none ∧ s.idle = some t

/-- **The invariant of the scheduler**, inside and outside locked sections: the queues are the lists `L`, every task
has its place, and the globals agree. -/
structure Steady (s : Sched) (L : QueuePtr → List TaskId) (c : Cpu) : Prop where
  repr : Represents s.links L []
  placed : ∀ t, Placed s.state s.tasks L c.task t
  cpu : CpuIs s c
  base : c.base ≤ s.lockCount
  ints : c.base < s.lockCount → s.interrupts = false
  postponed : s.lockCount = 0 → s.postponed = false
  boot : c = .boot → s.postponed = false ∧ ∀ q, q ≠ .readyQueue → L q = []
  idle : ∀ t, c = .idle t → t ∈ s.tasks

/-- What a context switch keeps: everything but the processor and the ready queue. -/
structure Kept (s : Sched) (L : QueuePtr → List TaskId) (s' : Sched) (L' : QueuePtr → List TaskId) : Prop where
  lists : ∀ q, q ≠ .readyQueue → L' q = L q
  semaphores : s'.semaphores = s.semaphores
  mutexes : s'.mutexes = s.mutexes
  tasks : s'.tasks = s.tasks
  schedulerReady : s'.schedulerReady = s.schedulerReady
  terminated : ∀ t, s'.state t = .terminated ↔ s.state t = .terminated

section Switch

variable {s : Sched} {L : QueuePtr → List TaskId} {t n : TaskId} {rest : List TaskId}

theorem scheduleEnd_running {b : Bool} (hcur : s.current = some t) (hstate : s.state t = .running) :
    scheduleEnd (b, s) = .ok (b, s) := by
  cases b <;> simp [scheduleEnd, currentTask, hcur, hstate, assert_pos, pure, Except.pure]

theorem restoreTask_spec (hints : s.interrupts = false) (hcount : s.lockCount = 0) :
    restoreTask s n = .ok (s.switched n) := by
  simp only [restoreTask, kassert, assert_pos hints, assert_pos hcount, ok_bind, pure, Except.pure]

/-- `switch_task` to a task that has been marked as running. -/
theorem switchTask_spec (hints : s.interrupts = false) (hcount : s.lockCount = 0) (hn : s.state n = .running) :
    ∃ b switched, switchTask s t n >>= scheduleEnd =
      .ok (b, { s with switched := switched, current := some n }) := by
  refine ⟨Function.update s.switched t true n, Function.update s.switched t true, ?_⟩
  have hrestore : restoreTask { s with switched := Function.update s.switched t true, current := some n } n =
      .ok (Function.update s.switched t true n) := restoreTask_spec hints hcount
  simp only [switchTask, kassert, assert_pos hints, assert_pos hcount, assert_pos hn, ok_bind, hrestore, pure,
    Except.pure]
  exact scheduleEnd_running rfl hn

/-- A preempted task goes to the ready queue. -/
theorem scheduleSwitch_preempt (hrepr : Represents s.links L []) (hints : s.interrupts = false)
    (hcount : s.lockCount = 0) (hne : t ≠ n) (hn : s.state n = .ready) (ht : s.state t = .running)
    (hnone : ∀ q, t ∉ L q) : ∃ b links switched, scheduleSwitch s t n = .ok (b, { s with
        links := links, state := Function.update (Function.update s.state t .ready) n .running,
        switched := switched, current := some n }) ∧
      Represents links (Function.update L .readyQueue (L .readyQueue ++ [t])) [] := by
  obtain ⟨links, hqueue, hlinks⟩ := taskQueue_spec (s := s.setState t .ready) (q := .readyQueue) hrepr hints
    List.not_mem_nil hnone
  obtain ⟨b, switched, hswitch⟩ := switchTask_spec (t := t) (n := n)
    (s := Sched.setState { s.setState t .ready with links := links } n .running) hints hcount (Function.update_self ..)
  refine ⟨b, links, switched, ?_, hlinks⟩
  rw [scheduleSwitch, if_pos hne, assert_bind hn, if_pos ht, hqueue, ok_bind, hswitch]

/-- A task that has left the processor is just left behind. -/
theorem scheduleSwitch_leave (hints : s.interrupts = false) (hcount : s.lockCount = 0) (hne : t ≠ n)
    (hn : s.state n = .ready) (ht : s.state t ≠ .running) : ∃ b switched, scheduleSwitch s t n = .ok (b, { s with
        state := Function.update s.state n .running, switched := switched, current := some n }) := by
  obtain ⟨b, switched, hswitch⟩ := switchTask_spec (t := t) (n := n) (s := s.setState n .running) hints hcount
    (Function.update_self ..)
  rcases eq_or_ne (s.state t) .terminated with hterm | hterm
  · refine ⟨s.switched n, s.switched, ?_⟩
    have hrestore : restoreTask { s.setState n .running with current := some n } n = .ok (s.switched n) :=
      restoreTask_spec hints hcount
    rw [scheduleSwitch, if_pos hne, assert_bind hn, if_neg ht, if_pos hterm]
    exact (congrArg (· >>= _) hrestore).trans (scheduleEnd_running rfl (Function.update_self n ..))
  · refine ⟨b, switched, ?_⟩
    rw [scheduleSwitch, if_pos hne, assert_bind hn, if_neg ht, if_neg hterm, hswitch]

theorem scheduleSwitch_self (hcur : s.current = some t) (ht : s.state t = .running) :
    scheduleSwitch s t t = .ok (true, s) := by
  rw [scheduleSwitch, if_neg (not_not.2 rfl), scheduleEnd_running hcur ht]

end Switch

/-! ## `__schedule` -/

/-- Before `__schedule`: `t` is still current, and `run` is `some t` if it could run on. -/
structure Dispatching (s : Sched) (L : QueuePtr → List TaskId) (t : TaskId) (run : Option TaskId) : Prop where
  repr : Represents s.links L []
  placed : ∀ u, Placed s.state s.tasks L run u
  cpu : CpuIs s (.run t)
  ints : s.interrupts = false
  count : s.lockCount = 0
  postponed : s.postponed = false
  who : run = some t ∨ run = none ∧ t ∈ s.tasks ∧ t ∉ L .readyQueue

section Schedule

variable {s : Sched} {L L' : QueuePtr → List TaskId} {t n : TaskId} {rest : List TaskId}

/-- A ready task takes the free processor; `L'` are the lists without it. -/
theorem dispatch_spec (switched : TaskId → Bool) (hplaced : ∀ u, Placed s.state s.tasks L none u)
    (hready : s.schedulerReady = true) (hidle : s.idle = none) (hcount : s.lockCount = 0) (hpost : s.postponed = false)
    (hn : n ∈ L .readyQueue)
    (hL : ∀ p u, u ∈ L' p ↔ u ∈ L p ∧ u ≠ n) (hlists : ∀ q, q ≠ .readyQueue → L' q = L q)
    {links : Links QueuePtr TaskId} (hlinks : Represents links L' []) :
    Steady { s with links := links, state := Function.update s.state n .running, switched := switched,
                    current := some n } L' (.run n) ∧
      Kept s L { s with links := links, state := Function.update s.state n .running, switched := switched,
                        current := some n } L' := by
  have hstate : s.state n = .ready := fits_ready.1 ((hplaced n).of_mem hn).1
  constructor
  · exact ⟨hlinks, placed_dispatch hplaced hn hL, ⟨hready, rfl, hidle⟩, Nat.zero_le _,
      fun h => absurd h (by simp [Cpu.base, hcount]), fun _ => hpost, by simp, by simp⟩
  · refine ⟨hlists, rfl, rfl, rfl, rfl, fun u => ?_⟩
    rcases eq_or_ne u n with rfl | hu
    · simp [hstate]
    · simp [hu]

/-- The lists when the running task `t` has joined the ready queue and its first task `n` has left it. -/
theorem mem_rotate (hrepr : Represents s.links L []) (hready : L .readyQueue = n :: rest) (hnt : n ≠ t) (p : QueuePtr)
    (u : TaskId) : u ∈ Function.update L .readyQueue (rest ++ [t]) p ↔
      u ∈ Function.update L .readyQueue (L .readyQueue ++ [t]) p ∧ u ≠ n := by
  have htail : u ∈ Function.update L .readyQueue rest p ↔ u ∈ L p ∧ u ≠ n := hrepr.mem_tail hready
  rcases eq_or_ne p .readyQueue with rfl | hp
  · simp only [Function.update_self, List.mem_append, List.mem_singleton] at htail ⊢
    rw [htail]
    constructor
    · rintro (⟨h1, h2⟩ | rfl)
      · exact ⟨.inl h1, h2⟩
      · exact ⟨.inr rfl, hnt.symm⟩
    · rintro ⟨h1 | rfl, h2⟩
      · exact .inl ⟨h1, h2⟩
      · exact .inr rfl
  · simp only [Function.update_of_ne hp] at htail ⊢
    exact htail

/-- The first ready task takes the processor from a task that could run on. -/
theorem preempt_spec (switched : TaskId → Bool) (hrepr : Represents s.links L [])
    (hplaced : ∀ u, Placed s.state s.tasks L (some t) u) (hcpu : CpuIs s (.run t)) (hcount : s.lockCount = 0)
    (hpost : s.postponed = false) (hready : L .readyQueue = n :: rest) {links : Links QueuePtr TaskId}
    (hlinks : Represents links (Function.update L .readyQueue (rest ++ [t])) []) :
    Steady { s with links := links, state := Function.update (Function.update s.state t .ready) n .running,
                    switched := switched, current := some n } (Function.update L .readyQueue (rest ++ [t])) (.run n) ∧
      Kept s L { s with links := links, state := Function.update (Function.update s.state t .ready) n .running,
                        switched := switched, current := some n } (Function.update L .readyQueue (rest ++ [t])) := by
  have hn : n ∈ L .readyQueue := by simp [hready]
  obtain ⟨ht, hnone, -⟩ := (hplaced t).of_run
  have hnt : n ≠ t := ne_of_mem_of_not_mem hn (hnone _)
  obtain ⟨hsteady, hkept⟩ := dispatch_spec (s := s.setState t .ready) switched
    (placed_leave hplaced (fits_ready.2 rfl)) hcpu.1 hcpu.2.2 hcount hpost (Represents.mem_snoc.2 (.inl hn))
    (mem_rotate hrepr hready hnt) (fun q hq => by simp [hq]) hlinks
  refine ⟨hsteady, fun q hq => Function.update_of_ne hq .., rfl, rfl, rfl, rfl, fun u => ?_⟩
  apply (hkept.terminated u).trans
  rcases eq_or_ne u t with rfl | hut
  · simp [ht]
  · simp [hut]

/-- **A context switch.** `__schedule` returns in a steady state and moves tasks only between the processor and the
ready queue. -/
theorem rawSchedule_spec {run : Option TaskId} (h : Dispatching s L t run) : ∃ b s' L' c,
    rawSchedule s = .ok (b, s') ∧ Steady s' L' c ∧ s'.lockCount = c.base ∧ Kept s L s' L' := by
  obtain ⟨hrepr, hplaced, hcpu, hints, hcount, hpost, hwho⟩ := h
  have hcur : currentTask s = .ok t := by simp [currentTask, hcpu.2.1]
  rw [rawSchedule, assert_bind hints, assert_bind hcount, hcur, ok_bind]
  cases hready : L .readyQueue with
  | nil =>
    rw [taskDequeue_nil hrepr hints hready, ok_bind]
    rcases hwho with rfl | ⟨rfl, ht, -⟩
    · have hrun := (hplaced t).of_run.1
      refine ⟨true, s, L, .run t, ?_, ?_, hcount, fun _ _ => rfl, rfl, rfl, rfl, rfl, fun _ => Iff.rfl⟩
      · simp only [hrun, if_true]
        exact scheduleSwitch_self hcpu.2.1 hrun
      · exact ⟨hrepr, hplaced, hcpu, Nat.zero_le _, fun _ => hints, fun _ => hpost, by simp, by simp⟩
    · have hrun := (hplaced t).ne_running ht
      refine ⟨false, { s with current := none, idle := some t, lockCount := s.lockCount + 1, interrupts := true }, L,
        .idle t, by simp only [hrun, if_false]; rfl, ?_, ?_, fun _ _ => rfl, rfl, rfl, rfl, rfl, fun _ => Iff.rfl⟩
      · exact ⟨hrepr, hplaced, ⟨hcpu.1, rfl, rfl⟩, by simp [Cpu.base], by simp [Cpu.base, hcount], by simp, by simp,
          by simpa using ht⟩
      · simp [Cpu.base, hcount]
  | cons n rest =>
    have hn : n ∈ L .readyQueue := by simp [hready]
    have hstate : s.state n = .ready := fits_ready.1 ((hplaced n).of_mem hn).1
    obtain ⟨links, hdeq, hlinks⟩ := taskDequeue_cons hrepr hints hready
    rw [hdeq, ok_bind]
    rcases hwho with rfl | ⟨rfl, ht, hnot⟩
    · obtain ⟨hrun, hnone, -⟩ := (hplaced t).of_run
      have hnt : t ≠ n := (ne_of_mem_of_not_mem hn (hnone _)).symm
      obtain ⟨b, links', switched, hswitch, hlinks'⟩ := scheduleSwitch_preempt (s := { s with links := links }) hlinks
        hints hcount hnt hstate hrun fun q hq => hnone q ((hrepr.mem_tail hready).1 hq).1
      rw [Function.update_self, Function.update_idem] at hlinks'
      obtain ⟨hsteady, hkept⟩ := preempt_spec switched hrepr hplaced hcpu hcount hpost hready hlinks'
      exact ⟨b, _, _, .run n, hswitch, hsteady, hcount, hkept⟩
    · have hnt : t ≠ n := by rintro rfl; exact hnot hn
      obtain ⟨b, switched, hswitch⟩ := scheduleSwitch_leave (s := { s with links := links }) hints hcount hnt hstate
        ((hplaced t).ne_running ht)
      obtain ⟨hsteady, hkept⟩ := dispatch_spec switched hplaced hcpu.1 hcpu.2.2 hcount hpost hn
        (fun p u => hrepr.mem_tail hready) (fun q hq => Function.update_of_ne hq ..) hlinks
      exact ⟨b, _, _, .run n, hswitch, hsteady, hcount, hkept⟩

/-- The end of `scheduler_unlock` only turns interrupts on again. -/
theorem afterSchedule_spec {b : Bool} {c : Cpu} (h : Steady s L c) (hcount : s.lockCount = c.base) :
    ∃ e i, afterSchedule (b, s) = { s with enableInts := e, interrupts := i } ∧
      Steady { s with enableInts := e, interrupts := i } L c := by
  have hsteady : ∀ e i, Steady { s with enableInts := e, interrupts := i } L c := fun e i =>
    ⟨h.repr, h.placed, h.cpu, h.base, fun hlt => absurd hlt (by simp [hcount]), h.postponed, h.boot, h.idle⟩
  unfold afterSchedule unlockTail
  split
  · split
    · exact ⟨_, _, rfl, hsteady _ _⟩
    · exact ⟨s.enableInts, s.interrupts, rfl, hsteady _ _⟩
  · exact ⟨s.enableInts, s.interrupts, rfl, hsteady _ _⟩

/-- `__schedule` and what follows it. -/
theorem schedule_spec {run : Option TaskId} (h : Dispatching s L t run) : ∃ s' L' c,
    (do return afterSchedule (← rawSchedule s)) = (.ok s' : Kernel Sched) ∧ Steady s' L' c ∧ s'.lockCount = c.base ∧
      Kept s L s' L' := by
  obtain ⟨b, s₁, L', c, hraw, hsteady, hcount, hkept⟩ := rawSchedule_spec h
  obtain ⟨e, i, hafter, hsteady'⟩ := afterSchedule_spec (b := b) hsteady hcount
  refine ⟨_, L', c, ?_, hsteady', hcount, hkept.lists, hkept.semaphores, hkept.mutexes, hkept.tasks,
    hkept.schedulerReady, hkept.terminated⟩
  rw [hraw, ok_bind, hafter]
  rfl

/-- **The idle loop.** After a `hlt` the processor idles on, or a ready task runs. -/
theorem idleWake_spec (h : Steady s L (.idle t)) (hcount : s.lockCount = 1) : ∃ s' L' c, idleWake s = .ok s' ∧
    Steady s' L' c ∧ s'.lockCount = c.base ∧ Kept s L s' L' := by
  obtain ⟨hready, hcur, hidle⟩ := h.cpu
  have htask := h.idle t rfl
  simp only [idleWake, hidle]
  cases hq : L .readyQueue with
  | nil =>
    rw [if_pos (h.repr.first_eq_none.2 hq)]
    refine ⟨{ s with interrupts := true, idle := some t }, L, .idle t, rfl, ?_, hcount, fun _ _ => rfl, rfl, rfl, rfl,
      rfl, fun _ => Iff.rfl⟩
    exact ⟨h.repr, h.placed, ⟨hready, hcur, rfl⟩, h.base, by simp [Cpu.base, hcount], h.postponed, h.boot, h.idle⟩
  | cons n rest =>
    have hn : n ∈ L .readyQueue := by simp [hq]
    have hstate : s.state n = .ready := fits_ready.1 ((h.placed n).of_mem hn).1
    have hcount' : s.lockCount - 1 = 0 := by omega
    obtain ⟨links, hdeq, hlinks⟩ := taskDequeue_cons (s := { s with
        interrupts := false, postponed := false, current := some t, idle := none, lockCount := s.lockCount - 1 })
      h.repr rfl hq
    rw [if_neg (by simp [h.repr.first, hq]), assert_bind hcount', hdeq, ok_bind]
    have hdispatch := fun switched => dispatch_spec (n := n) (s := { s with
        interrupts := false, postponed := false, current := some t, idle := none, lockCount := s.lockCount - 1 })
      switched h.placed hready rfl hcount' rfl hn (fun p u => h.repr.mem_tail hq)
      (fun q hq => Function.update_of_ne hq ..) hlinks
    rcases eq_or_ne t n with rfl | hne
    · obtain ⟨hsteady, hkept⟩ := hdispatch s.switched
      obtain ⟨e, i, hafter, hsteady'⟩ := afterSchedule_spec (b := true) hsteady hcount'
      refine ⟨_, _, .run t, ?_, hsteady', hcount', hkept.lists, hkept.semaphores, hkept.mutexes, hkept.tasks,
        hkept.schedulerReady, hkept.terminated⟩
      simp only [if_true, kassert, assert_pos hstate, ok_bind]
      rw [scheduleSwitch_self rfl (by simp), ok_bind, ← hafter]
      rfl
    · obtain ⟨b, switched, hswitch⟩ := scheduleSwitch_leave (t := t) (n := n) (s := { s with
          interrupts := false, postponed := false, current := some t, idle := none, lockCount := s.lockCount - 1,
          links := links }) rfl hcount' hne hstate ((h.placed t).ne_running htask)
      obtain ⟨hsteady, hkept⟩ := hdispatch switched
      obtain ⟨e, i, hafter, hsteady'⟩ := afterSchedule_spec (b := b) hsteady hcount'
      refine ⟨_, _, .run n, ?_, hsteady', hcount', hkept.lists, hkept.semaphores, hkept.mutexes, hkept.tasks,
        hkept.schedulerReady, hkept.terminated⟩
      simp only [hne, if_false]
      rw [hswitch, ok_bind, ← hafter]
      rfl

end Schedule

/-! ## Locked sections -/

section Locks

variable {s : Sched} {L : QueuePtr → List TaskId} {c : Cpu} {t : TaskId}

/-- `scheduler_lock` returns, unless a switch was asked for outside every section. -/
theorem schedulerLock_ok (h : s.lockCount = 0 → s.postponed = false) : ∃ e,
    schedulerLock s = .ok { s with interrupts := false, enableInts := e, lockCount := s.lockCount + 1 } := by
  unfold schedulerLock
  split
  · rename_i hcount
    rw [assert_bind (h hcount)]
    exact ⟨_, rfl⟩
  · exact ⟨s.enableInts, rfl⟩

/-- `scheduler_lock` starts a section with interrupts off. -/
theorem schedulerLock_spec (h : Steady s L c) : ∃ e,
    schedulerLock s = .ok { s with interrupts := false, enableInts := e, lockCount := s.lockCount + 1 } ∧
      Steady { s with interrupts := false, enableInts := e, lockCount := s.lockCount + 1 } L c := by
  obtain ⟨e, he⟩ := schedulerLock_ok h.postponed
  exact ⟨e, he, h.repr, h.placed, h.cpu, Nat.le_succ_of_le h.base, fun _ => rfl, by simp, h.boot, h.idle⟩

/-- An inner `scheduler_unlock` only counts. -/
theorem schedulerUnlock_nested (hints : s.interrupts = false) (hcount : 1 < s.lockCount) :
    schedulerUnlock s = .ok { s with lockCount := s.lockCount - 1 } := by
  have h0 : s.lockCount ≠ 0 := by omega
  have h1 : ¬ s.lockCount - 1 = 0 := by omega
  rw [schedulerUnlock, assert_bind hints, assert_bind h0]
  exact if_neg h1

/-- The outermost `scheduler_unlock`, with a switch asked for. -/
theorem schedulerUnlock_schedules (hints : s.interrupts = false) (hcount : s.lockCount = 1)
    (hready : s.schedulerReady = true) (hpost : s.postponed = true) : schedulerUnlock s =
      (do return afterSchedule (← rawSchedule { s with lockCount := 0, postponed := false })) := by
  rw [schedulerUnlock, assert_bind hints, assert_bind (by omega)]
  simp only [hcount, Nat.sub_self, if_true, hready, hpost, Bool.and_self]

/-- **The end of a locked section.** -/
theorem schedulerUnlock_spec (h : Steady s L c) (hlt : c.base < s.lockCount) : ∃ s' L' c', schedulerUnlock s = .ok s' ∧
    Steady s' L' c' ∧ Kept s L s' L' ∧ (c' = c ∧ s'.lockCount = s.lockCount - 1 ∨ s'.lockCount = c'.base) := by
  have hints := h.ints hlt
  rcases Nat.lt_or_ge 1 s.lockCount with hcount | hcount
  · refine ⟨_, L, c, schedulerUnlock_nested hints hcount, ?_, ⟨fun _ _ => rfl, rfl, rfl, rfl, rfl, fun _ => Iff.rfl⟩,
      .inl ⟨rfl, rfl⟩⟩
    exact ⟨h.repr, h.placed, h.cpu, Nat.le_sub_one_of_lt hlt, fun _ => hints, fun h0 => by simp at h0; omega, h.boot,
      h.idle⟩
  · have hcount : s.lockCount = 1 := by omega
    have hbase : c.base = 0 := by omega
    by_cases hs : s.schedulerReady = true ∧ s.postponed = true
    · obtain ⟨t, rfl⟩ : ∃ t, c = .run t := by
        cases c with
        | boot => exact absurd (h.cpu.1) (by simp [hs.1])
        | run t => exact ⟨t, rfl⟩
        | idle t => simp [Cpu.base] at hbase
      have hdispatch : Dispatching { s with lockCount := 0, postponed := false } L t (some t) :=
        ⟨h.repr, h.placed, h.cpu, hints, rfl, rfl, .inl rfl⟩
      obtain ⟨s', L', c', hsched, hsteady, hcount', hkept⟩ := schedule_spec hdispatch
      refine ⟨s', L', c', ?_, hsteady, ⟨hkept.lists, hkept.semaphores, hkept.mutexes, hkept.tasks,
        hkept.schedulerReady, hkept.terminated⟩, .inr hcount'⟩
      rw [schedulerUnlock_schedules hints hcount hs.1 hs.2]
      exact hsched
    · have hpost : s.postponed = false := by
        cases c with
        | boot => exact (h.boot rfl).1
        | run t => simpa [h.cpu.1] using hs
        | idle t => simp [Cpu.base] at hbase
      have hsteady : Steady { s with lockCount := s.lockCount - 1 } L c :=
        ⟨h.repr, h.placed, h.cpu, by simp [hbase], fun h0 => by simp at h0; omega, fun _ => hpost, h.boot, h.idle⟩
      obtain ⟨e, i, hafter, hsteady'⟩ := afterSchedule_spec (b := true) hsteady (by simp [hcount, hbase])
      refine ⟨_, L, c, ?_, hsteady', ⟨fun _ _ => rfl, rfl, rfl, rfl, rfl, fun _ => Iff.rfl⟩, .inl ⟨rfl, rfl⟩⟩
      rw [schedulerUnlock, assert_bind hints, assert_bind (by omega), ← hafter]
      simp [hcount, hpost, afterSchedule, pure, Except.pure]

/-- The end of a locked section in which `t` has left the processor. -/
theorem schedulerUnlock_leave (h : Dispatching { s with lockCount := 0, postponed := false } L t none)
    (hcount : s.lockCount = 1) (hpost : s.postponed = true) : ∃ s' L' c', schedulerUnlock s = .ok s' ∧
      Steady s' L' c' ∧ Kept s L s' L' ∧ s'.lockCount = c'.base := by
  obtain ⟨s', L', c', hsched, hsteady, hcount', hkept⟩ := schedule_spec h
  refine ⟨s', L', c', ?_, hsteady, ⟨hkept.lists, hkept.semaphores, hkept.mutexes, hkept.tasks,
    hkept.schedulerReady, hkept.terminated⟩, hcount'⟩
  rw [schedulerUnlock_schedules (s := s) h.ints hcount h.cpu.1 hpost]
  exact hsched

end Locks

end Myunix.Task
