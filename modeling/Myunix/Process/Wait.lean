import Myunix.Task.Runs

/-!
# `process_waitpid` and `process_exit`

A parent that waits for a child looks at the child's state and then blocks on the child's `wait_queue`. These are two
steps: console output between them gives up the processor. A child that ends wakes one task of its `wait_queue` and
terminates, in one locked section.

`waitpid_wakes_up` says that no parent stays blocked on a child that has terminated, as long as no child runs that
section while its parent is between the two steps; `process_waitpid_lost_wakeup` is a run in which it does, and the
parent is blocked for good.
-/

namespace Myunix.Process

open Lib Myunix.Task

/-! ## The system -/

/-- Where a task is in `process_waitpid(pid)`. -/
inductive WaitCall
  /-- At the head of the loop. -/
  | look (pid : Word)
  /-- The child `p` was found and had not terminated; `task_block` comes next. -/
  | tested (p : TaskId) (pid : Word)
deriving DecidableEq, Repr

/-- The scheduler, the children in the process tree, and the calls of `process_waitpid`. A process is named by its
task. -/
structure WaitSys where
  sched : Sched
  children : TaskId → List TaskId
  call : TaskId → Option WaitCall

/-- What happens next. -/
inductive WaitOp
  /-- Console output, system calls and interrupts that have nothing to do with processes waiting or ending. -/
  | sched (op : SchedOp)
  /-- The running process makes a child. -/
  | clone (child : TaskId)
  | waitpid (pid : Word)
  /-- The next step of `process_waitpid`. -/
  | next
  | exit
deriving DecidableEq, Repr

/-- `process_waitpid_find`. -/
def processWaitpidFind (pids : TaskId → Word) (children : List TaskId) (pid : Word) : Option TaskId :=
  children.find? fun candidate => pids candidate == pid

/-- One round of the loop of `process_waitpid`, up to the branch on the child's state. -/
def waitpidTest (pids : TaskId → Word) (x : WaitSys) (t : TaskId) (pid : Word) : Option WaitCall :=
  match processWaitpidFind pids (x.children t) pid with
  | none => none
  | some p => if x.sched.state p = .terminated then none else some (.tested p pid)

/-- `process_exit` from its `scheduler_lock` on. -/
def processExit (s : Sched) : Kernel Sched := do
  let s ← schedulerLock s
  let p ← currentTask s
  let s ← taskUnblockNext s (.process p)
  taskExit s

/-- One step of the running task. -/
def waitStep (pids : TaskId → Word) (x : WaitSys) : WaitOp → Kernel WaitSys
  | .sched op => do
    let s ← schedStep x.sched op
    return { x with sched := s }
  | .clone child => do
    let parent ← currentTask x.sched
    let s ← taskAdd x.sched child
    return { x with sched := s, children := Function.update x.children parent (x.children parent ++ [child]) }
  | .waitpid pid => do
    let t ← currentTask x.sched
    return { x with call := Function.update x.call t (some (.look pid)) }
  | .next => do
    let t ← currentTask x.sched
    match x.call t with
    | none => throw .bounds
    | some (.look pid) => return { x with call := Function.update x.call t (waitpidTest pids x t pid) }
    | some (.tested p pid) => do
      let s ← taskBlock x.sched (.process p) .blocked
      return { x with sched := s, call := Function.update x.call t (some (.look pid)) }
  | .exit => do
    let s ← processExit x.sched
    return { x with sched := s }

/-- When a step can be made. A process ends by `process_exit` only, and its queue is used by these two functions
only. -/
def WaitLegal (x : WaitSys) : WaitOp → Prop
  | .sched op => Legal x.sched op ∧ (∀ p reason, op ≠ .taskBlock (.process p) reason) ∧
      (∀ p, op ≠ .taskUnblockNext (.process p)) ∧
      (op = .taskExit → ∀ t, x.sched.current = some t → ∀ p, t ∉ x.children p)
  | .clone child => x.sched.current ≠ none ∧ child ∉ x.sched.tasks
  | .waitpid _ => ∃ t, x.sched.current = some t ∧ x.call t = none ∧ x.sched.lockCount = 0
  | .next => ∃ t call, x.sched.current = some t ∧ x.call t = some call ∧ x.sched.lockCount = 0
  | .exit => ∃ t, x.sched.current = some t ∧ x.call t = none ∧ x.sched.lockCount = 0

/-- The locked section of a child's `process_exit` does not run while its parent is between the test of the child's
state and `task_block`. -/
def ParentNotBetween (x : WaitSys) (op : WaitOp) : Prop :=
  op = .exit → ∀ p, x.sched.current = some p → ∀ t pid, x.call t ≠ some (.tested p pid)

/-- The boot state. -/
def waitBoot (counts : Nat → Word) : WaitSys := ⟨boot counts, fun _ => [], fun _ => none⟩

/-! ## The invariant -/

/-- **The invariant**: only parents wait for a process, and nobody waits or is about to wait for one that has
terminated. -/
structure WaitSound (x : WaitSys) (L : QueuePtr → List TaskId) (c : Cpu) : Prop where
  sound : Sound x.sched L c
  tasks : ∀ p k, k ∈ x.children p → k ∈ x.sched.tasks
  parent : ∀ p p' k, k ∈ x.children p → k ∈ x.children p' → p = p'
  queue : ∀ t k, t ∈ L (.process k) → k ∈ x.children t
  tested : ∀ t k pid, x.call t = some (.tested k pid) → k ∈ x.children t
  ended : ∀ k ∈ x.sched.tasks, x.sched.state k = .terminated →
    L (.process k) = [] ∧ ∀ t pid, x.call t ≠ some (.tested k pid)

section Invariant

variable {x : WaitSys} {L L' : QueuePtr → List TaskId} {c c' : Cpu} {s' : Sched} {k t : TaskId}

/-- Nobody waits for a process without a parent. -/
theorem WaitSound.childless (h : WaitSound x L c) (hk : ∀ p, k ∉ x.children p) :
    L (.process k) = [] ∧ ∀ t pid, x.call t ≠ some (.tested k pid) := by
  constructor
  · apply List.eq_nil_iff_forall_not_mem.2
    exact fun t ht => hk t (h.queue t k ht)
  · exact fun t pid ht => hk t (h.tested t k pid ht)

/-- At most the parent waits for a process. -/
theorem WaitSound.queue_tail (h : WaitSound x L c) : (L (.process k)).tail = [] := by
  cases hL : L (.process k) with
  | nil => rfl
  | cons a rest =>
    have hnodup := h.sound.repr.nodup (.process k)
    rw [hL, List.nodup_cons] at hnodup
    rw [List.tail_cons]
    apply List.eq_nil_iff_forall_not_mem.2
    intro b hb
    have hparent := h.parent a b k (h.queue a k (by simp [hL])) (h.queue b k (by simp [hL, hb]))
    exact hnodup.1 (hparent ▸ hb)

/-- An operation that leaves the queues of processes alone. -/
theorem waitSound_sched {op : SchedOp} (h : WaitSound x L c) (hs : Stepped x.sched L c op s' L' c')
    (hlists : ∀ k, opLists x.sched L op (.process k) = L (.process k))
    (hexit : op = .taskExit → ∀ t, x.sched.current = some t → ∀ p, t ∉ x.children p) :
    WaitSound { x with sched := s' } L' c' := by
  have hL : ∀ k, L' (.process k) = L (.process k) := fun k => (hs.lists _ (by simp)).trans (hlists k)
  have hsub : ∀ k ∈ x.sched.tasks, k ∈ s'.tasks := by
    intro k hk
    rw [hs.tasks]
    cases op <;> simp [opTasks, hk]
  refine ⟨hs.sound, fun p k hk => hsub k (h.tasks p k hk), h.parent, fun t k ht => ?_, h.tested, fun k hk hterm => ?_⟩
  · rw [hL] at ht
    exact h.queue t k ht
  · rw [hL]
    by_cases hold : k ∈ x.sched.tasks
    · rcases (hs.terminated k hold).1 hterm with hterm | ⟨hop, hcur⟩
      · exact h.ended k hold hterm
      · exact h.childless (hexit hop k hcur)
    · exact h.childless fun p hp => hold (h.tasks p k hp)

/-- A call moves on. -/
theorem waitSound_call (h : WaitSound x L c) (call : Option WaitCall)
    (hcall : ∀ k pid, call = some (.tested k pid) → k ∈ x.children t ∧ x.sched.state k ≠ .terminated) :
    WaitSound { x with call := Function.update x.call t call } L c := by
  refine ⟨h.sound, h.tasks, h.parent, h.queue, fun u k pid hu => ?_, fun k hk hterm => ?_⟩
  · rcases eq_or_ne u t with rfl | hut
    · exact (hcall k pid (by simpa using hu)).1
    · exact h.tested u k pid (by simpa [hut] using hu)
  · refine ⟨(h.ended k hk hterm).1, fun u pid hu => ?_⟩
    rcases eq_or_ne u t with rfl | hut
    · exact (hcall k pid (by simpa using hu)).2 hterm
    · exact (h.ended k hk hterm).2 u pid (by simpa [hut] using hu)

/-- A test that goes on to `task_block` has found a child that has not terminated. -/
theorem waitpidTest_tested {pids : TaskId → Word} {pid pid' : Word}
    (h : waitpidTest pids x t pid = some (.tested k pid')) : k ∈ x.children t ∧ x.sched.state k ≠ .terminated := by
  unfold waitpidTest at h
  split at h
  · simp at h
  · rename_i p hfind
    split at h
    · simp at h
    · rename_i hstate
      obtain ⟨rfl, -⟩ : p = k ∧ pid = pid' := by simpa using h
      exact ⟨List.mem_of_find?_eq_some hfind, hstate⟩

/-- `task_block` on the queue of a child that has not terminated. -/
theorem waitSound_block {p : TaskId} {pid : Word} (h : WaitSound x L c) (hcur : x.sched.current = some t)
    (hcall : x.call t = some (.tested p pid)) (hs : Stepped x.sched L c (.taskBlock (.process p) .blocked) s' L' c') :
    WaitSound { x with sched := s', call := Function.update x.call t (some (.look pid)) } L' c' := by
  have hchild := h.tested t p pid hcall
  have hL : ∀ k, L' (.process k) = if k = p then L (.process p) ++ [t] else L (.process k) := by
    intro k
    rw [hs.lists _ (by simp), opLists, hcur]
    rcases eq_or_ne k p with rfl | hk
    · simp
    · simp [hk]
  have htasks : s'.tasks = x.sched.tasks := hs.tasks
  refine ⟨hs.sound, fun q k hk => ?_, h.parent, fun u k hu => ?_, fun u k pid' hu => ?_, fun k hk hterm => ?_⟩
  · rw [htasks]; exact h.tasks q k hk
  · rw [hL] at hu
    split at hu
    · rename_i hk
      subst hk
      rcases List.mem_append.1 hu with hu | hu
      · exact h.queue u k hu
      · rw [List.mem_singleton.1 hu]; exact hchild
    · exact h.queue u k hu
  · rcases eq_or_ne u t with rfl | hut
    · simp at hu
    · exact h.tested u k pid' (by simpa [hut] using hu)
  · have hk' : k ∈ x.sched.tasks := by rw [← htasks]; exact hk
    have hterm' : x.sched.state k = .terminated := by simpa using (hs.terminated k hk').1 hterm
    obtain ⟨hempty, hcalls⟩ := h.ended k hk' hterm'
    have hkp : k ≠ p := by
      rintro rfl
      exact hcalls t pid hcall
    rw [hL, if_neg hkp]
    refine ⟨hempty, fun u pid' hu => ?_⟩
    rcases eq_or_ne u t with rfl | hut
    · simp at hu
    · exact hcalls u pid' (by simpa [hut] using hu)

/-- **The end of a process**: one task of its queue becomes ready and it terminates. -/
theorem processExit_spec {s : Sched} (h : Sound s L (.run t)) (hcount : s.lockCount = 0) : ∃ s' L' c',
    processExit s = .ok s' ∧ Sound s' L' c' ∧
      (∀ q, q ≠ .readyQueue → L' q = Function.update L (.process t) (L (.process t)).tail q) ∧
      s'.tasks = s.tasks ∧ ∀ k ∈ s.tasks, s'.state k = .terminated → s.state k = .terminated ∨ k = t := by
  obtain ⟨e, hlock, h₁⟩ := schedulerLock_spec h.toSteady
  obtain ⟨s₂, L₂, hnext, h₂, hcount₂, hkept⟩ := taskUnblockNext_nested (q := .process t) h₁ (by simp)
    (Nat.succ_pos s.lockCount)
  have hcount₂' : s₂.lockCount = 1 := by rw [hcount₂]; simp [hcount]
  have hsound₂ : Sound s₂ L₂ (.run t) := ⟨h₂, by rw [hkept.semaphores]; exact h.spin⟩
  obtain ⟨s', L', c', hexit, hs⟩ := taskExit_stepped hsound₂ (by simp [h₂.cpu.2.1]) hcount₂'
  have htasks₂ : s₂.tasks = s.tasks := hkept.tasks
  refine ⟨s', L', c', ?_, hs.sound, fun q hq => ?_, ?_, fun k hk hterm => ?_⟩
  · rw [processExit, hlock, ok_bind, currentTask_run h₁.cpu, ok_bind, hnext, ok_bind, hexit]
  · exact (hs.lists q hq).trans (hkept.lists q hq)
  · exact hs.tasks.trans htasks₂
  · rcases (hs.terminated k (by rw [htasks₂]; exact hk)).1 hterm with hold | ⟨-, hcur⟩
    · exact .inl ((hkept.terminated k).1 hold)
    · exact .inr (by simpa [h₂.cpu.2.1] using hcur.symm)

/-- The locked section of `process_exit`, while nobody is about to wait for the process. -/
theorem waitSound_exit (h : WaitSound x L (.run t)) (hcount : x.sched.lockCount = 0)
    (hnot : ∀ u pid, x.call u ≠ some (.tested t pid)) :
    ∃ s' L' c', processExit x.sched = .ok s' ∧ WaitSound { x with sched := s' } L' c' := by
  obtain ⟨s', L', c', hexit, hsound, hlists, htasks, hterm⟩ := processExit_spec h.sound hcount
  have hL : ∀ k, L' (.process k) = if k = t then [] else L (.process k) := by
    intro k
    rw [hlists _ (by simp)]
    rcases eq_or_ne k t with rfl | hk
    · rw [Function.update_self, if_pos rfl, h.queue_tail]
    · simp [hk]
  refine ⟨s', L', c', hexit, hsound, fun p k hk => ?_, h.parent, fun u k hu => ?_, h.tested, fun k hk hend => ?_⟩
  · rw [htasks]; exact h.tasks p k hk
  · rw [hL] at hu
    split at hu
    · simp at hu
    · exact h.queue u k hu
  · have hk' : k ∈ x.sched.tasks := by rw [← htasks]; exact hk
    rcases eq_or_ne k t with rfl | hkt
    · exact ⟨by rw [hL, if_pos rfl], hnot⟩
    · have hold := (hterm k hk' hend).resolve_right hkt
      rw [hL, if_neg hkt]
      exact h.ended k hk' hold

/-- A new child. -/
theorem waitSound_clone {child : TaskId} (h : WaitSound x L c) (hnew : child ∉ x.sched.tasks)
    (hs : Stepped x.sched L c (.taskAdd child) s' L' c') :
    WaitSound { x with
      sched := s', children := Function.update x.children t (x.children t ++ [child]) } L' c' := by
  have hbase := waitSound_sched h hs (fun _ => rfl) (by simp)
  have hparents : ∀ p k, k ∈ Function.update x.children t (x.children t ++ [child]) p ↔
      k ∈ x.children p ∨ (k = child ∧ p = t) := fun p k => Represents.mem_snoc
  have hnot : ∀ p, child ∉ x.children p := fun p hp => hnew (h.tasks p child hp)
  refine ⟨hs.sound, fun p k hk => ?_, fun p p' k hk hk' => ?_, fun u k hu => ?_, fun u k pid hu => ?_, hbase.ended⟩
  · rcases (hparents p k).1 hk with hk | ⟨rfl, -⟩
    · exact hbase.tasks p k hk
    · rw [hs.tasks]; exact List.mem_cons_self
  · rcases (hparents p k).1 hk with h1 | ⟨rfl, rfl⟩ <;> rcases (hparents p' k).1 hk' with h2 | ⟨h2, h3⟩
    · exact h.parent p p' k h1 h2
    · subst h2; exact absurd h1 (hnot p)
    · exact absurd h2 (hnot p')
    · exact h3.symm
  · exact (hparents u k).2 (.inl (hbase.queue u k hu))
  · exact (hparents u k).2 (.inl (h.tested u k pid hu))

/-- **One step** keeps the invariant. -/
theorem waitStep_spec {pids : TaskId → Word} {op : WaitOp} (h : WaitSound x L c) (hl : WaitLegal x op)
    (hnot : ParentNotBetween x op) : ∃ x' L' c', waitStep pids x op = .ok x' ∧ WaitSound x' L' c' := by
  cases op with
  | sched op =>
    obtain ⟨hlegal, hblock, hnext, hexit⟩ := hl
    obtain ⟨s', L', c', hstep, hs⟩ := schedStep_spec h.sound hlegal
    refine ⟨{ x with sched := s' }, L', c', by rw [waitStep, hstep]; rfl, waitSound_sched h hs (fun k => ?_) hexit⟩
    exact opLists_untouched (by simp) (hblock k) (hnext k) (by simp)
  | clone child =>
    obtain ⟨hcur, hnew⟩ := hl
    obtain ⟨t, rfl, -⟩ := h.sound.eq_run hcur
    obtain ⟨s', L', c', hadd, hs⟩ := taskAdd_stepped h.sound hnew
    refine ⟨_, L', c', ?_, waitSound_clone (t := t) h hnew hs⟩
    rw [waitStep, currentTask_run h.sound.cpu, ok_bind, hadd]
    rfl
  | waitpid pid =>
    obtain ⟨t, hcur, -, -⟩ := hl
    refine ⟨_, L, c, ?_, waitSound_call (t := t) h (some (.look pid)) (by simp)⟩
    simp [waitStep, currentTask, hcur, pure, Except.pure]
  | next =>
    obtain ⟨t, call, hcur, hcall, hcount⟩ := hl
    cases call with
    | look pid =>
      refine ⟨_, L, c, ?_, waitSound_call (t := t) h (waitpidTest pids x t pid)
        fun k pid' hk => waitpidTest_tested hk⟩
      simp [waitStep, currentTask, hcur, hcall, pure, Except.pure]
    | tested p pid =>
      obtain ⟨s', L', c', hblock, hs⟩ := taskBlock_stepped (q := .process p) h.sound (by simp [hcur]) hcount (by simp)
        (show Parked .blocked from .inr (.inl rfl))
      refine ⟨_, L', c', ?_, waitSound_block h hcur hcall hs⟩
      simp [waitStep, currentTask, hcur, hcall, hblock, pure, Except.pure]
  | exit =>
    obtain ⟨t, hcur, -, hcount⟩ := hl
    obtain ⟨u, rfl, hcur'⟩ := h.sound.eq_run (by simp [hcur])
    obtain rfl : t = u := by simpa [hcur] using hcur'
    obtain ⟨s', L', c', hexit, hx'⟩ := waitSound_exit h hcount (hnot rfl t hcur)
    exact ⟨{ x with sched := s' }, L', c', by rw [waitStep, hexit]; rfl, hx'⟩

theorem waitBoot_sound (counts : Nat → Word) : WaitSound (waitBoot counts) (fun _ => []) .boot where
  sound := boot_sound counts
  tasks p k hk := by simp [waitBoot] at hk
  parent p p' k hk := by simp [waitBoot] at hk
  queue t k ht := by simp at ht
  tested t k pid ht := by simp [waitBoot] at ht
  ended k hk := by simp [waitBoot, boot] at hk

/-- **No lost wakeup**, as long as no child ends while its parent is between the test of the child's state and
`task_block`: in every run, nobody is blocked on the queue of a process that has terminated. -/
theorem waitpid_wakes_up (pids : TaskId → Word) (counts : Nat → Word) (ops : List WaitOp)
    (h : StepsMeet (waitStep pids) (fun x op => WaitLegal x op ∧ ParentNotBetween x op) (waitBoot counts) ops) :
    ∃ x L, runSteps (waitStep pids) (waitBoot counts) ops = .ok x ∧ Represents x.sched.links L [] ∧
      ∀ t k, x.sched.state k = .terminated → t ∉ L (.process k) := by
  obtain ⟨x, hrun, L, c, hx⟩ := runSteps_inv (I := fun _ x => ∃ L c, WaitSound x L c)
    (fun _ x op hI (hok : WaitLegal x op ∧ ParentNotBetween x op) => by
      obtain ⟨L, c, hx⟩ := hI
      obtain ⟨x', L', c', hstep, hx'⟩ := waitStep_spec hx hok.1 hok.2
      exact ⟨x', hstep, L', c', hx'⟩)
    ops [] ⟨_, _, waitBoot_sound counts⟩ h
  refine ⟨x, L, hrun, hx.sound.repr, fun t k hterm ht => ?_⟩
  have hk := hx.tasks t k (hx.queue t k ht)
  simp [(hx.ended k hk hterm).1] at ht

end Invariant

/-- Process 1 waits for its child 2, which ends afterwards. -/
def waitRun : List WaitOp :=
  [.sched (.taskAdd 1), .sched .taskingEnable, .clone 2, .waitpid 2#32, .next, .next, .exit, .next]

theorem waitRun_wakes_up : ∃ x L, runSteps (waitStep fun p => BitVec.ofNat 32 p) (waitBoot fun _ => 0#32) waitRun =
    .ok x ∧ Represents x.sched.links L [] ∧ ∀ t k, x.sched.state k = .terminated → t ∉ L (.process k) := by
  apply waitpid_wakes_up _ _ waitRun
  refine stepsMeet_cons ⟨⟨by simp [Legal, waitBoot, boot], by simp, by simp, by simp⟩, by simp [ParentNotBetween]⟩
    rfl ?_
  refine stepsMeet_cons ⟨⟨⟨rfl, rfl, by decide⟩, by simp, by simp, by simp⟩, by simp [ParentNotBetween]⟩ rfl ?_
  refine stepsMeet_cons ⟨⟨by decide, show 2 ∉ [1] by decide⟩, by simp [ParentNotBetween]⟩ rfl ?_
  refine stepsMeet_cons ⟨⟨1, rfl, rfl, rfl⟩, by simp [ParentNotBetween]⟩ rfl ?_
  refine stepsMeet_cons ⟨⟨1, _, rfl, rfl, rfl⟩, by simp [ParentNotBetween]⟩ rfl ?_
  refine stepsMeet_cons ⟨⟨1, _, rfl, rfl, rfl⟩, by simp [ParentNotBetween]⟩ rfl ?_
  refine stepsMeet_cons ⟨⟨2, rfl, rfl, rfl⟩, fun _ p _ t pid => ?_⟩ rfl ?_
  · -- process 1 is back at the head of its loop
    intro h
    rcases eq_or_ne t 1 with rfl | ht
    · cases h
    · dsimp only at h
      rw [Function.update_of_ne ht, Function.update_of_ne ht, Function.update_of_ne ht] at h
      cases h
  exact stepsMeet_cons ⟨⟨1, _, rfl, rfl, rfl⟩, by simp [ParentNotBetween]⟩ rfl trivial

example : ∃ x, runSteps (waitStep fun p => BitVec.ofNat 32 p) (waitBoot fun _ => 0#32) waitRun = .ok x ∧
    x.sched.current = some 1 ∧ x.call 1 = none ∧ x.sched.state 2 = .terminated :=
  ⟨_, rfl, rfl, rfl, rfl⟩

/-- Process 1 has seen that its child 2 has not terminated, and console output gives up the processor; the child ends;
process 1 blocks. -/
def lostRun : List WaitOp :=
  [.sched (.taskAdd 1), .sched .taskingEnable, .clone 2, .waitpid 2#32, .next, .sched .yield, .exit, .next]

/-- The parent is blocked on the queue of a child that has terminated. -/
theorem process_waitpid_lost_wakeup :
    StepsMeet (waitStep fun p => BitVec.ofNat 32 p) WaitLegal (waitBoot fun _ => 0#32) lostRun ∧
    ∃ x, runSteps (waitStep fun p => BitVec.ofNat 32 p) (waitBoot fun _ => 0#32) lostRun = .ok x ∧
      x.children 1 = [2] ∧ x.sched.state 2 = .terminated ∧ x.sched.state 1 = .blocked ∧
      (x.sched.links.queues (.process 2)).first = some 1 := by
  refine ⟨?_, _, rfl, rfl, rfl, rfl, rfl⟩
  refine stepsMeet_cons ⟨by simp [Legal, waitBoot, boot], by simp, by simp, by simp⟩ rfl ?_
  refine stepsMeet_cons ⟨⟨rfl, rfl, by decide⟩, by simp, by simp, by simp⟩ rfl ?_
  refine stepsMeet_cons ⟨by decide, show 2 ∉ [1] by decide⟩ rfl ?_
  refine stepsMeet_cons ⟨1, rfl, rfl, rfl⟩ rfl ?_
  refine stepsMeet_cons ⟨1, _, rfl, rfl, rfl⟩ rfl ?_
  refine stepsMeet_cons ⟨rfl, by simp, by simp, by simp⟩ rfl ?_
  refine stepsMeet_cons ⟨2, rfl, rfl, rfl⟩ rfl ?_
  exact stepsMeet_cons ⟨1, _, rfl, rfl, rfl⟩ rfl trivial

end Myunix.Process
