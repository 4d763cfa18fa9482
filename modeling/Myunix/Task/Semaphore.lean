import Myunix.Task.Runs

/-!
# Semaphores over whole runs

`SemLog` records what happens on one semaphore: who called `semaphore_acquire`, who was granted a unit, who has
returned, in which order tasks blocked and were woken. It is kept beside the scheduler by looking at its state before
and after each operation (`observe`).

`semaphore_runs_safe` says that a unit is never lost and never handed out twice, as long as no release finds the count
at its largest value: `count++` wraps there, and `semaphore_release_loses_units` is such a run.
-/

namespace Myunix.Task

open Lib

/-! ## The log of a semaphore -/

/-- What has happened on a semaphore. -/
structure SemLog where
  /-- Calls of `semaphore_acquire`, for each task. -/
  calls : TaskId → Nat
  /-- Units granted to each task. -/
  grants : TaskId → Nat
  /-- Calls of `semaphore_acquire` that have returned, for each task. -/
  returns : TaskId → Nat
  /-- All units granted. -/
  granted : Nat
  releases : Nat
  /-- The tasks that had to block, in that order. -/
  blocked : List TaskId
  /-- The blocked tasks that were granted a unit, in that order. -/
  woken : List TaskId

/-- Nothing has happened. -/
def emptyLog : SemLog := ⟨fun _ => 0, fun _ => 0, fun _ => 0, 0, 0, [], []⟩

/-- The running task calls `semaphore_acquire`: it takes a unit or blocks. -/
def acquired (i : Nat) (s : Sched) (g : SemLog) : SemLog :=
  match s.current with
  | none => g
  | some t =>
    if 0#32 < (s.semaphores i).count then
      { g with
        calls := Function.update g.calls t (g.calls t + 1), grants := Function.update g.grants t (g.grants t + 1),
        granted := g.granted + 1 }
    else { g with calls := Function.update g.calls t (g.calls t + 1), blocked := g.blocked ++ [t] }

/-- `semaphore_release` is called: the unit goes to the first blocked task or is counted. -/
def released (i : Nat) (s : Sched) (g : SemLog) : SemLog :=
  match (s.links.queues (.semaphore i)).first with
  | none => { g with releases := g.releases + 1 }
  | some t =>
    { g with
      grants := Function.update g.grants t (g.grants t + 1), granted := g.granted + 1, releases := g.releases + 1,
      woken := g.woken ++ [t] }

/-- A task that runs again has returned from its calls. -/
def returned (s : Sched) (g : SemLog) : SemLog :=
  match s.current with
  | none => g
  | some t => { g with returns := Function.update g.returns t (g.calls t) }

/-- The log after an operation that goes from `s` to `s'`. -/
def observe (i : Nat) (s : Sched) (op : SchedOp) (s' : Sched) (g : SemLog) : SemLog :=
  match op with
  | .semaphoreAcquire j => returned s' (if j = i then acquired i s g else g)
  | .semaphoreRelease j => returned s' (if j = i then released i s g else g)
  | _ => returned s' g

/-- An operation, and the log of the semaphore `i`. -/
def semStep (i : Nat) (x : Sched × SemLog) (op : SchedOp) : Kernel (Sched × SemLog) := do
  let s ← schedStep x.1 op
  return (s, observe i x.1 op s x.2)

/-- Only `semaphore_acquire` and `semaphore_release` touch the queue of the semaphore. -/
def SemLegal (i : Nat) (x : Sched × SemLog) (op : SchedOp) : Prop :=
  Legal x.1 op ∧ (∀ reason, op ≠ .taskBlock (.semaphore i) reason) ∧ op ≠ .taskUnblockNext (.semaphore i)

/-- A release that nobody waits for finds room in the count. -/
def HasRoom (i : Nat) (x : Sched × SemLog) (op : SchedOp) : Prop :=
  op = .semaphoreRelease i → (x.1.links.queues (.semaphore i)).first = none →
    (x.1.semaphores i).count ≠ 0xFFFFFFFF#32

/-! ## The invariant -/

/-- What is known of one task: it waits in the queue, or it has its units. -/
def Accounted (g : SemLog) (waiting : Prop) (t : TaskId) : Prop :=
  (waiting → g.calls t = g.returns t + 1 ∧ g.grants t = g.returns t) ∧
  (¬ waiting → g.grants t = g.calls t ∧ g.returns t ≤ g.calls t ∧ g.calls t ≤ g.returns t + 1)

/-- **The invariant of a semaphore** that started with `count` units. -/
structure SemSound (i : Nat) (count : Word) (x : Sched × SemLog) (L : QueuePtr → List TaskId) (c : Cpu) : Prop where
  sound : Sound x.1 L c
  empty : 0#32 < (x.1.semaphores i).count → L (.semaphore i) = []
  units : (x.1.semaphores i).count.toNat + x.2.granted = count.toNat + x.2.releases
  order : x.2.blocked = x.2.woken ++ L (.semaphore i)
  tasks : ∀ t, Accounted x.2 (t ∈ L (.semaphore i)) t
  running : ∀ t, x.1.current = some t → x.2.returns t = x.2.calls t

section Log

variable {i : Nat} {count : Word} {s s' : Sched} {g : SemLog} {L L' : QueuePtr → List TaskId} {c c' : Cpu}

/-- The running task is not in the queue: its return is recorded. -/
theorem returned_accounted (hrun : ∀ t, s'.current = some t → t ∉ L' (.semaphore i))
    (h : ∀ t, Accounted g (t ∈ L' (.semaphore i)) t) :
    (∀ t, Accounted (returned s' g) (t ∈ L' (.semaphore i)) t) ∧
      (∀ t, s'.current = some t → (returned s' g).returns t = (returned s' g).calls t) ∧
      (returned s' g).granted = g.granted ∧ (returned s' g).releases = g.releases ∧
      (returned s' g).blocked = g.blocked ∧ (returned s' g).woken = g.woken := by
  unfold returned
  cases hcur : s'.current with
  | none => exact ⟨h, by simp, rfl, rfl, rfl, rfl⟩
  | some t =>
    refine ⟨fun u => ?_, ?_, rfl, rfl, rfl, rfl⟩
    · rcases eq_or_ne u t with rfl | hu
      · have hnot := hrun u hcur
        obtain ⟨h1, h2, h3⟩ := (h u).2 hnot
        exact ⟨fun hin => absurd hin hnot, fun _ => ⟨h1, by simp, by simp⟩⟩
      · simpa [Accounted, hu] using h u
    · intro u hu
      obtain rfl : t = u := by simpa using hu
      simp

/-- The other operations leave no entry in the log. -/
theorem observe_quiet {op : SchedOp} (hacq : op ≠ .semaphoreAcquire i) (hrel : op ≠ .semaphoreRelease i) :
    observe i s op s' g = returned s' g := by
  cases op with
  | semaphoreAcquire j =>
    have hj : j ≠ i := by
      rintro rfl
      exact hacq rfl
    rw [observe, if_neg hj]
  | semaphoreRelease j =>
    have hj : j ≠ i := by
      rintro rfl
      exact hrel rfl
    rw [observe, if_neg hj]
  | _ => rfl

/-- The invariant after an operation, once the log has its new entries. -/
theorem semSound_returned {g : SemLog} (hsound : Sound s' L' c') (hempty : 0#32 < (s'.semaphores i).count →
      L' (.semaphore i) = [])
    (hunits : (s'.semaphores i).count.toNat + g.granted = count.toNat + g.releases)
    (horder : g.blocked = g.woken ++ L' (.semaphore i)) (htasks : ∀ t, Accounted g (t ∈ L' (.semaphore i)) t) :
    SemSound i count (s', returned s' g) L' c' := by
  have hrun : ∀ t, s'.current = some t → t ∉ L' (.semaphore i) := by
    intro t ht hmem
    rw [← hsound.task_eq] at ht
    exact ((hsound.placed t).of_mem hmem).2.1 ht
  obtain ⟨h1, h2, h3, h4, h5, h6⟩ := returned_accounted hrun htasks
  exact ⟨hsound, hempty, by rw [h3, h4]; exact hunits, by rw [h5, h6]; exact horder, h1, h2⟩

/-- `semaphore_acquire` on the semaphore. -/
theorem acquire_semSound (h : SemSound i count (s, g) L c) {t : TaskId} (hcur : s.current = some t)
    (hstep : Stepped s L c (.semaphoreAcquire i) s' L' c') :
    SemSound i count (s', returned s' (acquired i s g)) L' c' := by
  have hnot : t ∉ L (.semaphore i) := by
    intro hmem
    apply ((h.sound.placed t).of_mem hmem).2.1
    rw [h.sound.task_eq]; exact hcur
  have hgrants : g.grants t = g.calls t := ((h.tasks t).2 hnot).1
  have hret : g.returns t = g.calls t := h.running t hcur
  have hlist := hstep.lists (.semaphore i) (by simp)
  have hunits : (s.semaphores i).count.toNat + g.granted = count.toNat + g.releases := h.units
  simp only [acquired, hcur]
  by_cases hpos : 0#32 < (s.semaphores i).count
  · rw [opLists, if_pos hpos] at hlist
    have hsem : s'.semaphores i = ⟨(s.semaphores i).count - 1#32, 0#32⟩ := by
      rw [hstep.semaphores, opSemaphores, if_pos hpos, Function.update_self]
    have hcount : ((s.semaphores i).count - 1#32).toNat + 1 = (s.semaphores i).count.toNat := by bv_omega
    rw [if_pos hpos]
    refine semSound_returned hstep.sound (fun _ => ?_) ?_ ?_ fun u => ?_
    · rw [hlist]; exact h.empty hpos
    · simp only [hsem] at hunits ⊢
      omega
    · rw [hlist]; exact h.order
    · rw [hlist]
      rcases eq_or_ne u t with rfl | hu
      · exact ⟨fun hin => absurd hin hnot, fun _ => by simp [hgrants, hret]⟩
      · simpa [Accounted, hu] using h.tasks u
  · rw [opLists, if_neg hpos, Function.update_self, hcur] at hlist
    have hsem : s'.semaphores i = s.semaphores i := by rw [hstep.semaphores, opSemaphores, if_neg hpos]
    rw [if_neg hpos]
    refine semSound_returned hstep.sound (fun hp => ?_) ?_ ?_ fun u => ?_
    · rw [hsem] at hp; exact absurd hp hpos
    · rw [hsem]; exact hunits
    · rw [hlist, ← List.append_assoc, ← h.order]; rfl
    · rw [hlist]
      rcases eq_or_ne u t with rfl | hu
      · exact ⟨fun _ => by simp [hgrants, hret], fun hout => absurd (by simp) hout⟩
      · simpa [Accounted, hu] using h.tasks u

/-- `semaphore_release` on the semaphore, with room for another unit. -/
theorem release_semSound (h : SemSound i count (s, g) L c) (hroom : HasRoom i (s, g) (.semaphoreRelease i))
    (hstep : Stepped s L c (.semaphoreRelease i) s' L' c') :
    SemSound i count (s', returned s' (released i s g)) L' c' := by
  have hlist := hstep.lists (.semaphore i) (by simp)
  have hunits : (s.semaphores i).count.toNat + g.granted = count.toNat + g.releases := h.units
  rw [opLists, Function.update_self] at hlist
  unfold released
  cases hL : L (.semaphore i) with
  | nil =>
    have hfirst : (s.links.queues (.semaphore i)).first = none := h.sound.repr.first_eq_none.2 hL
    have hmax : (s.semaphores i).count ≠ 0xFFFFFFFF#32 := hroom rfl hfirst
    have hsem : s'.semaphores i = ⟨(s.semaphores i).count + 1#32, 0#32⟩ := by
      rw [hstep.semaphores, opSemaphores, if_pos hL, Function.update_self]
    have hcount : ((s.semaphores i).count + 1#32).toNat = (s.semaphores i).count.toNat + 1 := by bv_omega
    rw [hL] at hlist
    simp only [hfirst]
    refine semSound_returned hstep.sound (fun _ => by rw [hlist, List.tail_nil]) ?_ ?_ fun u => ?_
    · simp only [hsem] at hunits ⊢
      omega
    · rw [hlist, List.tail_nil, ← hL]; exact h.order
    · rw [hlist, List.tail_nil, ← hL]; exact h.tasks u
  | cons a rest =>
    have hfirst : (s.links.queues (.semaphore i)).first = some a := h.sound.repr.first_eq_some.2 ⟨rest, hL⟩
    have hsem : s'.semaphores i = s.semaphores i := by
      rw [hstep.semaphores, opSemaphores, if_neg (by simp [hL])]
    have hnodup := h.sound.repr.nodup (.semaphore i)
    rw [hL, List.nodup_cons] at hnodup
    have horder : g.blocked = g.woken ++ L (.semaphore i) := h.order
    have htasks : ∀ t, Accounted g (t ∈ L (.semaphore i)) t := h.tasks
    rw [hL] at hlist horder htasks
    rw [List.tail_cons] at hlist
    simp only [hfirst]
    refine semSound_returned hstep.sound (fun hp => ?_) ?_ ?_ fun u => ?_
    · rw [hsem] at hp
      exact absurd (h.empty hp) (by simp [hL])
    · simp only [hsem] at hunits ⊢
      omega
    · rw [hlist, List.append_assoc]; exact horder
    · rw [hlist]
      rcases eq_or_ne u a with rfl | hu
      · obtain ⟨hcalls, hgrants⟩ := (htasks u).1 List.mem_cons_self
        exact ⟨fun hin => absurd hin hnodup.1, fun _ => by simp [hgrants, hcalls]⟩
      · simpa [Accounted, hu] using htasks u

/-- **One operation** keeps the invariant. -/
theorem semStep_spec {op : SchedOp} (h : SemSound i count (s, g) L c) (hl : SemLegal i (s, g) op)
    (hroom : HasRoom i (s, g) op) : ∃ x L' c', semStep i (s, g) op = .ok x ∧ SemSound i count x L' c' := by
  obtain ⟨s', L', c', hrun, hstep⟩ := schedStep_spec h.sound hl.1
  refine ⟨(s', observe i s op s' g), L', c', by rw [semStep, hrun]; rfl, ?_⟩
  by_cases hacq : op = .semaphoreAcquire i
  · subst hacq
    obtain ⟨t, -, hcur⟩ := h.sound.eq_run hl.1.1
    simpa [observe] using acquire_semSound h hcur hstep
  · by_cases hrel : op = .semaphoreRelease i
    · subst hrel
      simpa [observe] using release_semSound h hroom hstep
    · have hobs : observe i s op s' g = returned s' g := observe_quiet hacq hrel
      have hlist := (hstep.lists (.semaphore i) (by simp)).trans
        (opLists_untouched (by simp) hl.2.1 hl.2.2 fun j hj => by
          obtain rfl : i = j := by simpa using hj
          exact ⟨hacq, hrel⟩)
      have hsem : s'.semaphores i = s.semaphores i := by rw [hstep.semaphores, opSemaphores_untouched hacq hrel]
      rw [hobs]
      refine semSound_returned hstep.sound ?_ ?_ ?_ ?_
      · rw [hsem, hlist]; exact h.empty
      · rw [hsem]; exact h.units
      · rw [hlist]; exact h.order
      · rw [hlist]; exact h.tasks

/-- **Semaphores are safe** as long as no release finds the count full: in every run from a state without waiters, a
positive count means that nobody waits, the units add up, blocked tasks are granted units in the order they blocked,
and a task that has returned from all its calls of `semaphore_acquire` has been granted exactly one unit for each. -/
theorem semaphore_runs_safe (i : Nat) (hsound : Sound s L c) (hempty : L (.semaphore i) = []) (ops : List SchedOp)
    (h : StepsMeet (semStep i) (fun x op => SemLegal i x op ∧ HasRoom i x op) (s, emptyLog) ops) :
    ∃ s' g L', runSteps (semStep i) (s, emptyLog) ops = .ok (s', g) ∧ Represents s'.links L' [] ∧
      (s'.semaphores i).lock = 0#32 ∧
      (0#32 < (s'.semaphores i).count → L' (.semaphore i) = []) ∧
      (s'.semaphores i).count.toNat + g.granted = (s.semaphores i).count.toNat + g.releases ∧
      g.blocked = g.woken ++ L' (.semaphore i) ∧
      (∀ t, g.calls t ≤ g.returns t + 1 ∧ g.returns t ≤ g.grants t ∧ g.grants t ≤ g.calls t) ∧
      ∀ t, s'.current = some t → g.returns t = g.calls t ∧ g.grants t = g.calls t := by
  have hstart : SemSound i (s.semaphores i).count (s, emptyLog) L c :=
    ⟨hsound, fun _ => hempty, rfl, by simp [emptyLog, hempty], fun t => by simp [Accounted, emptyLog, hempty],
      fun _ _ => rfl⟩
  obtain ⟨⟨s', g⟩, hrun, L', c', hx⟩ := runSteps_inv
    (I := fun _ x => ∃ L c', SemSound i (s.semaphores i).count x L c')
    (fun _ x op hI (hok : SemLegal i x op ∧ HasRoom i x op) => by
      obtain ⟨L, c, hx⟩ := hI
      obtain ⟨x', L', c', hstep, hx'⟩ := semStep_spec hx hok.1 hok.2
      exact ⟨x', hstep, L', c', hx'⟩)
    ops [] ⟨L, c, hstart⟩ h
  have htasks : ∀ t, Accounted g (t ∈ L' (.semaphore i)) t := hx.tasks
  refine ⟨s', g, L', hrun, hx.sound.repr, hx.sound.spin i, hx.empty, hx.units, hx.order, fun t => ?_, fun t ht => ?_⟩
  · by_cases ht : t ∈ L' (.semaphore i)
    · obtain ⟨h1, h2⟩ := (htasks t).1 ht
      exact ⟨by omega, by omega, by omega⟩
    · obtain ⟨h1, h2, h3⟩ := (htasks t).2 ht
      exact ⟨h3, by omega, by omega⟩
  · have hret : g.returns t = g.calls t := hx.running t ht
    have hnot : t ∉ L' (.semaphore i) := by
      intro hmem
      obtain ⟨h1, -⟩ := (htasks t).1 hmem
      omega
    exact ⟨hret, ((htasks t).2 hnot).1⟩

end Log

/-- Two tasks block on an empty semaphore; while the processor idles, an interrupt handler releases it twice. -/
def handoverRun : List SchedOp :=
  [.taskAdd 1, .taskAdd 2, .taskingEnable, .semaphoreAcquire 0, .semaphoreAcquire 0, .semaphoreRelease 0,
    .semaphoreRelease 0, .idleWake]

theorem handoverRun_safe : ∃ s' g L', runSteps (semStep 0) (boot fun _ => 0#32, emptyLog) handoverRun = .ok (s', g) ∧
    Represents s'.links L' [] ∧ (s'.semaphores 0).lock = 0#32 ∧
    (0#32 < (s'.semaphores 0).count → L' (.semaphore 0) = []) ∧
    (s'.semaphores 0).count.toNat + g.granted = (0#32).toNat + g.releases ∧
    g.blocked = g.woken ++ L' (.semaphore 0) ∧
    (∀ t, g.calls t ≤ g.returns t + 1 ∧ g.returns t ≤ g.grants t ∧ g.grants t ≤ g.calls t) ∧
    ∀ t, s'.current = some t → g.returns t = g.calls t ∧ g.grants t = g.calls t := by
  apply semaphore_runs_safe 0 (boot_sound _) rfl handoverRun
  refine stepsMeet_cons ⟨⟨by simp [Legal, boot], by simp, by simp⟩, by simp [HasRoom]⟩ rfl ?_
  refine stepsMeet_cons ⟨⟨show 2 ∉ [1] by decide, by simp, by simp⟩, by simp [HasRoom]⟩ rfl ?_
  refine stepsMeet_cons ⟨⟨⟨rfl, rfl, by decide⟩, by simp, by simp⟩, by simp [HasRoom]⟩ rfl ?_
  refine stepsMeet_cons ⟨⟨⟨by decide, rfl⟩, by simp, by simp⟩, by simp [HasRoom]⟩ rfl ?_
  refine stepsMeet_cons ⟨⟨⟨by decide, rfl⟩, by simp, by simp⟩, by simp [HasRoom]⟩ rfl ?_
  refine stepsMeet_cons ⟨⟨trivial, by simp, by simp⟩, fun _ _ => by decide⟩ rfl ?_
  refine stepsMeet_cons ⟨⟨trivial, by simp, by simp⟩, fun _ _ => by decide⟩ rfl ?_
  exact stepsMeet_cons ⟨⟨⟨by decide, rfl⟩, by simp, by simp⟩, by simp [HasRoom]⟩ rfl trivial

example : ∃ s g, runSteps (semStep 0) (boot fun _ => 0#32, emptyLog) handoverRun = .ok (s, g) ∧
    g.woken = [1, 2] ∧ s.current = some 1 ∧ g.returns 1 = 1 ∧ g.returns 2 = 0 :=
  ⟨_, _, rfl, rfl, rfl, rfl, rfl⟩

/-- A running task releases a semaphore whose count is at its largest value. -/
def fullRun : List SchedOp := [.taskAdd 1, .taskingEnable, .semaphoreRelease 0]

/-- `count++` wraps to 0: all the units are lost. -/
theorem semaphore_release_loses_units :
    StepsMeet (semStep 0) (SemLegal 0) (boot fun _ => 0xFFFFFFFF#32, emptyLog) fullRun ∧
    ∃ s g, runSteps (semStep 0) (boot fun _ => 0xFFFFFFFF#32, emptyLog) fullRun = .ok (s, g) ∧
      (s.semaphores 0).count.toNat + g.granted ≠ (0xFFFFFFFF#32).toNat + g.releases := by
  refine ⟨?_, _, _, rfl, by decide⟩
  refine stepsMeet_cons ⟨by simp [Legal, boot], by simp, by simp⟩ rfl ?_
  refine stepsMeet_cons ⟨⟨rfl, rfl, by decide⟩, by simp, by simp⟩ rfl ?_
  exact stepsMeet_cons ⟨trivial, by simp, by simp⟩ rfl trivial

end Myunix.Task
