import Myunix.Task.Mutex

/-!
# Waiters of a mutex

`mutex_lock` finds out with one statement that the mutex is locked and joins the queue with a later one; `mutex_unlock`
tests the queue with one statement and frees the lock with a later one. If the owner frees the lock between the two
statements of a waiter, the waiter joins the queue of a mutex that nobody holds (`lateRun_stranded`).

`mutex_runs_not_stranded` says that this is the only way: as long as every `arch_atomic_swap(mutex->lock, 0)` finds the
queue empty and nobody on the way into it, a free mutex has no waiters.
-/

namespace Myunix.Task

open Lib

/-- Nobody waits for the mutex, and nobody has found it locked without having joined the queue. -/
def NobodyWaits (m : Nat) (x : MutexSys) : Prop :=
  (x.sched.links.queues (.mutex m)).first = none ∧ ∀ k, ∀ f ∈ x.stack k, f.call ≠ some .lockBlock

/-- `mutex_unlock` frees the lock only when nobody waits for the mutex. -/
def FreesAlone (m : Nat) (x : MutexSys) (op : MutexOp) : Prop :=
  op = .next → ∀ holds rest, x.top = ⟨holds, some .unlockFree⟩ :: rest → NobodyWaits m x

/-- The lock is free and a task waits for it, while all code is outside the calls or blocked in them. -/
structure Stranded (m : Nat) (x : MutexSys) : Prop where
  free : (x.sched.mutexes m).lock = 0#32
  waits : (x.sched.links.queues (.mutex m)).first ≠ none
  outside : ∀ k ∈ none :: x.sched.tasks.map some, ∀ f ∈ x.stack k, f.call = none ∨
    k.map x.sched.state = some .blockedLock ∧ f.call = some .lockCheck

/-- **The invariant**: nobody waits for a free mutex. -/
def Clear (m : Nat) (x : MutexSys) : Prop := (x.sched.mutexes m).lock = 0#32 → NobodyWaits m x

section Steps

variable {m : Nat} {x x' : MutexSys} {L : QueuePtr → List TaskId} {c : Cpu} {holder : Option (Option TaskId)}
  {rest : List Frame} {holds : Bool}

/-- Other frames for the running context. -/
theorem NobodyWaits.setTop (h : NobodyWaits m x) {s : Sched} {l : List Frame}
    (hqueue : (s.links.queues (.mutex m)).first = none) (hl : ∀ f ∈ l, f ∈ x.top ∨ f.call ≠ some .lockBlock) :
    NobodyWaits m { x.setTop l with sched := s } := by
  refine ⟨hqueue, fun k f hf => ?_⟩
  rcases eq_or_ne k x.sched.current with rfl | hk
  · rw [show ({ x.setTop l with sched := s } : MutexSys).stack x.sched.current = l from Function.update_self ..] at hf
    rcases hl f hf with hf | hf
    · exact h.2 _ f hf
    · exact hf
  · rw [show ({ x.setTop l with sched := s } : MutexSys).stack k = x.stack k from Function.update_of_ne hk ..] at hf
    exact h.2 k f hf

/-- The first frame is replaced by one that is not on its way into the queue. -/
theorem NobodyWaits.setFrame (h : NobodyWaits m x) {s : Sched} {f g : Frame} (htop : x.top = g :: rest)
    (hqueue : (s.links.queues (.mutex m)).first = none) (hf : f.call ≠ some .lockBlock) :
    NobodyWaits m { x.setTop (f :: rest) with sched := s } := by
  apply h.setTop hqueue
  intro f' hf'
  rcases List.mem_cons.1 hf' with rfl | hf'
  · exact .inr hf
  · exact .inl (by rw [htop]; exact List.mem_cons_of_mem g hf')

/-- An empty queue stays empty while the scheduler works on something else, or wakes up the next task of it. -/
theorem first_eq_none {s : Sched} {L' : QueuePtr → List TaskId} {c' : Cpu} {op : SchedOp} (h : Sound x.sched L c)
    (hs : Stepped x.sched L c op s L' c') (hlist : opLists x.sched L op (.mutex m) = L (.mutex m) ∨
      opLists x.sched L op (.mutex m) = (L (.mutex m)).tail)
    (hnone : (x.sched.links.queues (.mutex m)).first = none) : (s.links.queues (.mutex m)).first = none := by
  have hempty : L (.mutex m) = [] := h.repr.first_eq_none.1 hnone
  apply hs.sound.repr.first_eq_none.2
  rw [hs.lists _ (by simp)]
  rcases hlist with hlist | hlist
  · rw [hlist, hempty]
  · rw [hlist, hempty, List.tail_nil]

/-- One statement of a call. -/
theorem mutexNext_clear {pc : MutexPc} {f : Frame} {s : Sched} (h : MutexSound m x L c holder) (hc : Clear m x)
    (htop : x.top = ⟨holds, some pc⟩ :: rest) (halone : FreesAlone m x .next)
    (hstep : mutexNext m x.sched holds pc = .ok (f, s)) : Clear m { x.setTop (f :: rest) with sched := s } := by
  cases pc with
  | lockSwap =>
    simp only [mutexNext, pure_eq_ok, Prod.mk.injEq] at hstep
    obtain ⟨-, rfl⟩ := hstep
    intro hfree
    simp at hfree
  | lockBlock =>
    -- a call on its way into the queue has found the mutex locked, and it still is
    simp only [mutexNext, bind_eq_ok, pure_eq_ok, Prod.mk.injEq] at hstep
    obtain ⟨s₁, hblock, rfl, rfl⟩ := hstep
    intro hfree
    obtain ⟨t, L', c', -, hs⟩ := mutexBlock_stepped h htop hblock
    have hfree : (x.sched.mutexes m).lock = 0#32 := by
      rw [← hs.mutexes]; exact hfree
    refine absurd rfl ((hc hfree).2 x.sched.current ⟨holds, some .lockBlock⟩ ?_)
    rw [← MutexSys.top, htop]
    exact List.mem_cons_self
  | lockCheck =>
    simp only [mutexNext, bind_eq_ok, pure_eq_ok, Prod.mk.injEq] at hstep
    obtain ⟨-, -, rfl, rfl⟩ := hstep
    exact fun hfree => (hc hfree).setFrame htop (hc hfree).1 (by simp)
  | lockTake =>
    simp only [mutexNext, pure_eq_ok, Prod.mk.injEq] at hstep
    obtain ⟨rfl, rfl⟩ := hstep
    intro hfree
    have hfree : (x.sched.mutexes m).lock = 0#32 := by simpa using hfree
    exact (hc hfree).setFrame htop (hc hfree).1 (by simp)
  | unlockSwap =>
    simp only [mutexNext, bind_eq_ok, pure_eq_ok, Prod.mk.injEq] at hstep
    obtain ⟨-, -, -, rfl⟩ := hstep
    intro hfree
    simp at hfree
  | unlockCheck =>
    simp only [mutexNext, bind_eq_ok, pure_eq_ok, Prod.mk.injEq] at hstep
    obtain ⟨-, -, rfl, rfl⟩ := hstep
    exact fun hfree => (hc hfree).setFrame htop (hc hfree).1 (by simp)
  | unlockClear =>
    simp only [mutexNext, pure_eq_ok, Prod.mk.injEq] at hstep
    obtain ⟨rfl, rfl⟩ := hstep
    intro hfree
    have hfree : (x.sched.mutexes m).lock = 0#32 := by simpa using hfree
    exact (hc hfree).setFrame htop (hc hfree).1 (by simp)
  | unlockTest =>
    simp only [mutexNext, pure_eq_ok, Prod.mk.injEq] at hstep
    obtain ⟨rfl, rfl⟩ := hstep
    refine fun hfree => (hc hfree).setFrame htop (hc hfree).1 ?_
    split <;> simp
  | unlockNext =>
    simp only [mutexNext, bind_eq_ok, pure_eq_ok, Prod.mk.injEq] at hstep
    obtain ⟨s₁, hnext, rfl, rfl⟩ := hstep
    obtain ⟨s₂, L', c', hrun, hs⟩ := taskUnblockNext_stepped (q := .mutex m) h.sound (by simp)
    obtain rfl : s₂ = s₁ := by
      rw [hrun, Except.ok.injEq] at hnext
      exact hnext
    intro hfree
    have hfree : (x.sched.mutexes m).lock = 0#32 := by
      rw [← hs.mutexes]; exact hfree
    refine (hc hfree).setFrame htop (first_eq_none h.sound hs (.inr ?_) (hc hfree).1) (by simp)
    rw [opLists, Function.update_self]
  | unlockFree =>
    simp only [mutexNext, pure_eq_ok, Prod.mk.injEq] at hstep
    obtain ⟨rfl, rfl⟩ := hstep
    have hnobody := halone rfl holds rest htop
    exact fun _ => hnobody.setFrame htop hnobody.1 (by simp)

/-- **One step** keeps the invariant. -/
theorem mutexStep_clear {op : MutexOp} (h : MutexSound m x L c holder) (hc : Clear m x) (hl : MutexLegal m x op)
    (halone : FreesAlone m x op) (hstep : mutexStep m x op = .ok x') : Clear m x' := by
  cases op with
  | sched op =>
    obtain ⟨hlegal, hblock, hnext, -⟩ := hl
    obtain ⟨s, L', c', hrun, hs⟩ := schedStep_spec h.sound hlegal
    rw [mutexStep, hrun, ok_bind, pure_eq_ok] at hstep
    subst hstep
    intro hfree
    have hfree : (x.sched.mutexes m).lock = 0#32 := by
      rw [← hs.mutexes]; exact hfree
    refine ⟨first_eq_none h.sound hs (.inl ?_) (hc hfree).1, (hc hfree).2⟩
    exact opLists_untouched (by simp) hblock hnext (by simp)
  | mutexLock =>
    obtain ⟨holds, rest, htop⟩ := hl
    simp only [mutexStep, htop, pure_eq_ok] at hstep
    subst hstep
    exact fun hfree => (hc hfree).setFrame htop (hc hfree).1 (by simp)
  | mutexUnlock =>
    obtain ⟨rest, htop⟩ := hl
    simp only [mutexStep, htop, pure_eq_ok] at hstep
    subst hstep
    exact fun hfree => (hc hfree).setFrame htop (hc hfree).1 (by simp)
  | next =>
    obtain ⟨holds, pc, rest, htop⟩ := hl
    simp only [mutexStep, htop, bind_eq_ok, pure_eq_ok, Prod.exists] at hstep
    obtain ⟨f, s, hnext, rfl⟩ := hstep
    exact mutexNext_clear h hc htop halone hnext
  | irq =>
    simp only [mutexStep, pure_eq_ok] at hstep
    subst hstep
    refine fun hfree => (hc hfree).setTop (hc hfree).1 fun f hf => ?_
    rcases List.mem_cons.1 hf with rfl | hf
    · exact .inr (by simp)
    · exact .inl hf
  | iret =>
    simp only [mutexStep, pure_eq_ok] at hstep
    subst hstep
    exact fun hfree => (hc hfree).setTop (hc hfree).1 fun f hf => .inl (List.mem_of_mem_tail hf)

end Steps

/-- **No stranded waiter.** If every `mutex_unlock` that frees the lock does so when nobody waits for the mutex or is
on the way into its queue, then no state of the run has a waiter of a free mutex. -/
theorem mutex_runs_not_stranded (m : Nat) (counts : Nat → Word) (ops : List MutexOp) {x : MutexSys}
    (h : StepsMeet (mutexStep m) (fun x op => (MutexLegal m x op ∧ SwitchesAway m x op) ∧ FreesAlone m x op)
      (mutexBoot counts) ops)
    (hrun : runSteps (mutexStep m) (mutexBoot counts) ops = .ok x) : ¬ Stranded m x := by
  obtain ⟨-, hclear⟩ := runSteps_keeps
    (I := fun x => (∃ L c holder, MutexSound m x L c holder) ∧ Clear m x)
    (fun x op x' hI (hok : (MutexLegal m x op ∧ SwitchesAway m x op) ∧ FreesAlone m x op) hstep => by
      obtain ⟨⟨L, c, holder, hx⟩, hclear⟩ := hI
      exact ⟨mutexStep_sound hx hok.1.1 hok.1.2 hstep, mutexStep_clear hx hclear hok.1.1 hok.2 hstep⟩)
    ops ⟨⟨_, _, _, mutexBoot_sound m counts⟩, fun _ => ⟨rfl, fun k f hf => by
      rw [List.mem_singleton.1 hf]; simp⟩⟩ h hrun
  exact fun hstranded => hstranded.waits (hclear hstranded.free).1

theorem contendedRun_not_stranded : ∃ x,
    runSteps (mutexStep 0) (mutexBoot fun _ => 0#32) contendedRun = .ok x ∧ ¬ Stranded 0 x := by
  refine ⟨_, rfl, mutex_runs_not_stranded 0 (fun _ => 0#32) contendedRun ?_ rfl⟩
  refine stepsMeet_cons ⟨⟨⟨by simp [Legal, mutexBoot, boot], by simp, by simp, .inr ⟨_, _, rfl⟩⟩,
    fun _ _ _ _ _ => rfl⟩, fun h => by cases h⟩ rfl ?_
  refine stepsMeet_cons ⟨⟨⟨show 2 ∉ [1] by decide, by simp, by simp, .inr ⟨_, _, rfl⟩⟩, fun _ _ _ _ _ => rfl⟩,
    fun h => by cases h⟩ rfl ?_
  refine stepsMeet_cons ⟨⟨⟨⟨rfl, rfl, by decide⟩, by simp, by simp, .inr ⟨_, _, rfl⟩⟩, fun _ _ _ _ _ => rfl⟩,
    fun h => by cases h⟩ rfl ?_
  refine stepsMeet_cons ⟨⟨⟨_, _, rfl⟩, fun _ _ _ _ _ => rfl⟩, fun h => by cases h⟩ rfl ?_
  refine stepsMeet_cons ⟨⟨⟨_, _, _, rfl⟩, fun _ _ _ _ _ => rfl⟩, fun _ _ _ h => by cases h⟩ rfl ?_
  refine stepsMeet_cons ⟨⟨⟨_, _, _, rfl⟩, fun _ _ _ _ _ => rfl⟩, fun _ _ _ h => by cases h⟩ rfl ?_
  refine stepsMeet_cons ⟨⟨⟨_, _, _, rfl⟩, fun _ _ _ _ _ => rfl⟩, fun _ _ _ h => by cases h⟩ rfl ?_
  refine stepsMeet_cons ⟨⟨⟨rfl, by simp, by simp, .inr ⟨_, _, rfl⟩⟩, fun _ _ _ _ _ => rfl⟩, fun h => by cases h⟩ rfl ?_
  refine stepsMeet_cons ⟨⟨⟨_, _, rfl⟩, fun _ _ _ _ _ => rfl⟩, fun h => by cases h⟩ rfl ?_
  refine stepsMeet_cons ⟨⟨⟨_, _, _, rfl⟩, fun _ _ _ _ _ => rfl⟩, fun _ _ _ h => by cases h⟩ rfl ?_
  refine stepsMeet_cons ⟨⟨⟨_, _, _, rfl⟩, fun _ _ _ _ _ => rfl⟩, fun _ _ _ h => by cases h⟩ rfl ?_
  refine stepsMeet_cons ⟨⟨⟨_, rfl⟩, fun _ _ _ _ _ => rfl⟩, fun h => by cases h⟩ rfl ?_
  refine stepsMeet_cons ⟨⟨⟨_, _, _, rfl⟩, fun _ _ _ _ _ => rfl⟩, fun _ _ _ h => by cases h⟩ rfl ?_
  refine stepsMeet_cons ⟨⟨⟨_, _, _, rfl⟩, fun _ _ _ _ _ => rfl⟩, fun _ _ _ h => by cases h⟩ rfl ?_
  refine stepsMeet_cons ⟨⟨⟨_, _, _, rfl⟩, fun _ _ _ _ _ => rfl⟩, fun _ _ _ h => by cases h⟩ rfl ?_
  refine stepsMeet_cons ⟨⟨⟨_, _, _, rfl⟩, fun _ _ _ _ _ => rfl⟩, fun _ _ _ h => by cases h⟩ rfl ?_
  refine stepsMeet_cons ⟨⟨⟨_, _, _, rfl⟩, fun _ _ _ _ _ => rfl⟩, fun _ _ _ h => by cases h⟩ rfl ?_
  exact stepsMeet_cons ⟨⟨⟨_, _, _, rfl⟩, fun _ _ _ _ _ => rfl⟩, fun _ _ _ h => by cases h⟩ rfl trivial

/-- Two tasks that run with interrupts on. A timer interrupt takes the processor from task 1 while it has the mutex;
task 2 finds the mutex locked, and the next interrupt comes before it has joined the queue. Task 1 unlocks the mutex
and yields. -/
def lateRun : List MutexOp :=
  [.sched (.taskAdd 1), .sched (.taskAdd 2), .sched .taskingEnable, .sched (.flags true), .mutexLock, .next, .next,
    .next, .irq, .sched (.flags false), .sched .tick, .sched (.flags true), .mutexLock, .next, .irq,
    .sched (.flags false), .sched .tick, .sched (.flags true), .iret, .mutexUnlock, .next, .next, .next, .next, .next,
    .sched .yield, .sched (.flags true), .iret, .next]

/-- Task 2 waits for a mutex that nobody has. -/
theorem lateRun_stranded :
    StepsMeet (mutexStep 0) (fun x op => MutexLegal 0 x op ∧ SwitchesAway 0 x op) (mutexBoot fun _ => 0#32) lateRun ∧
    ∃ x, runSteps (mutexStep 0) (mutexBoot fun _ => 0#32) lateRun = .ok x ∧ Stranded 0 x := by
  refine ⟨?_, _, rfl, rfl, by decide, by decide⟩
  refine stepsMeet_cons ⟨⟨by simp [Legal, mutexBoot, boot], by simp, by simp, .inr ⟨_, _, rfl⟩⟩,
    fun _ _ _ _ _ => rfl⟩ rfl ?_
  refine stepsMeet_cons ⟨⟨show 2 ∉ [1] by decide, by simp, by simp, .inr ⟨_, _, rfl⟩⟩, fun _ _ _ _ _ => rfl⟩ rfl ?_
  refine stepsMeet_cons ⟨⟨⟨rfl, rfl, by decide⟩, by simp, by simp, .inr ⟨_, _, rfl⟩⟩, fun _ _ _ _ _ => rfl⟩ rfl ?_
  refine stepsMeet_cons ⟨⟨rfl, by simp, by simp, .inr ⟨_, _, rfl⟩⟩, fun _ _ _ _ _ => rfl⟩ rfl ?_
  refine stepsMeet_cons ⟨⟨_, _, rfl⟩, fun _ _ _ _ _ => rfl⟩ rfl ?_
  refine stepsMeet_cons ⟨⟨_, _, _, rfl⟩, fun _ _ _ _ _ => rfl⟩ rfl ?_
  refine stepsMeet_cons ⟨⟨_, _, _, rfl⟩, fun _ _ _ _ _ => rfl⟩ rfl ?_
  refine stepsMeet_cons ⟨⟨_, _, _, rfl⟩, fun _ _ _ _ _ => rfl⟩ rfl ?_
  refine stepsMeet_cons ⟨rfl, fun _ _ _ _ _ => rfl⟩ rfl ?_
  refine stepsMeet_cons ⟨⟨rfl, by simp, by simp, .inr ⟨_, _, rfl⟩⟩, fun _ _ _ _ _ => rfl⟩ rfl ?_
  refine stepsMeet_cons ⟨⟨rfl, by simp, by simp, .inr ⟨_, _, rfl⟩⟩, fun _ _ _ _ _ => rfl⟩ rfl ?_
  refine stepsMeet_cons ⟨⟨rfl, by simp, by simp, .inr ⟨_, _, rfl⟩⟩, fun _ _ _ _ _ => rfl⟩ rfl ?_
  refine stepsMeet_cons ⟨⟨_, _, rfl⟩, fun _ _ _ _ _ => rfl⟩ rfl ?_
  refine stepsMeet_cons ⟨⟨_, _, _, rfl⟩, fun _ _ _ _ _ => rfl⟩ rfl ?_
  refine stepsMeet_cons ⟨rfl, fun _ _ _ _ _ => rfl⟩ rfl ?_
  refine stepsMeet_cons ⟨⟨rfl, by simp, by simp, .inr ⟨_, _, rfl⟩⟩, fun _ _ _ _ _ => rfl⟩ rfl ?_
  refine stepsMeet_cons ⟨⟨rfl, by simp, by simp, .inr ⟨_, _, rfl⟩⟩, fun _ _ _ _ _ => rfl⟩ rfl ?_
  refine stepsMeet_cons ⟨⟨rfl, by simp, by simp, .inr ⟨_, _, rfl⟩⟩, fun _ _ _ _ _ => rfl⟩ rfl ?_
  refine stepsMeet_cons ⟨⟨rfl, _, _, rfl⟩, fun _ _ _ _ _ => rfl⟩ rfl ?_
  refine stepsMeet_cons ⟨⟨_, rfl⟩, fun _ _ _ _ _ => rfl⟩ rfl ?_
  refine stepsMeet_cons ⟨⟨_, _, _, rfl⟩, fun _ _ _ _ _ => rfl⟩ rfl ?_
  refine stepsMeet_cons ⟨⟨_, _, _, rfl⟩, fun _ _ _ _ _ => rfl⟩ rfl ?_
  refine stepsMeet_cons ⟨⟨_, _, _, rfl⟩, fun _ _ _ _ _ => rfl⟩ rfl ?_
  refine stepsMeet_cons ⟨⟨_, _, _, rfl⟩, fun _ _ _ _ _ => rfl⟩ rfl ?_
  refine stepsMeet_cons ⟨⟨_, _, _, rfl⟩, fun _ _ _ _ _ => rfl⟩ rfl ?_
  refine stepsMeet_cons ⟨⟨rfl, by simp, by simp, .inr ⟨_, _, rfl⟩⟩, fun _ _ _ _ _ => rfl⟩ rfl ?_
  refine stepsMeet_cons ⟨⟨rfl, by simp, by simp, .inr ⟨_, _, rfl⟩⟩, fun _ _ _ _ _ => rfl⟩ rfl ?_
  refine stepsMeet_cons ⟨⟨rfl, _, _, rfl⟩, fun _ _ _ _ _ => rfl⟩ rfl ?_
  exact stepsMeet_cons ⟨⟨_, _, _, rfl⟩, fun _ _ _ _ _ => rfl⟩ rfl trivial

end Myunix.Task
