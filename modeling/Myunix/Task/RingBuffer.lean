import Myunix.CString
import Myunix.Lib.Ring
import Myunix.Task.Runs

/-!
# Ring buffers of `ringbuffer.c`

A ring buffer is two positions in an array and a semaphore that counts the bytes. `ringbuffer_write_byte` never waits,
and interrupt handlers call it. `ringbuffer_read_byte` waits for a unit of the semaphore, then takes the byte at the
read position: `RingOp.read` is its call of `semaphore_acquire`, `RingOp.readEnd` the rest, once the task runs again.

`ringbuffer_agrees_iff` says when the three descriptions of the same queue agree in every state of a run: exactly when
every write finds fewer than `size - 1` bytes in the buffer. With one byte more the positions meet and the buffer
looks empty, and the next write destroys the oldest byte (`fillRun_overrun`).
-/

namespace Myunix.Task

open Lib

/-! ## The functions -/

/-- `ringbuffer_t`, apart from its semaphore. -/
structure RingBuffer where
  buffer : List Byte
  size : Word
  writeHead : Word
  readHead : Word
deriving DecidableEq, Repr

/-- `ringbuffer_unread`. -/
def ringbufferUnread (rb : RingBuffer) : Word :=
  if rb.writeHead < rb.readHead then (rb.size - rb.readHead) + rb.writeHead else rb.writeHead - rb.readHead

/-- `ringbuffer_init` of a ring buffer whose semaphore is the `i`-th. -/
def ringbufferInit (s : Sched) (i : Nat) (buffer : List Byte) (size : Word) : RingBuffer × Sched :=
  (⟨buffer, size, 0#32, 0#32⟩, s.setSemaphore i ⟨0#32, (s.semaphores i).lock⟩)

/-- `ringbuffer_read_byte` after its `semaphore_acquire`. -/
def takeByte (rb : RingBuffer) : Kernel (Byte × RingBuffer) :=
  match rb.buffer[rb.readHead.toNat]? with
  | none => throw .bounds
  | some c => return (c, { rb with readHead := (rb.readHead + 1#32) % rb.size })

/-- `ringbuffer_write_byte` before its `semaphore_release`. -/
def putByte (rb : RingBuffer) (c : Byte) : Kernel RingBuffer :=
  if rb.writeHead.toNat < rb.buffer.length then
    return { rb with buffer := rb.buffer.set rb.writeHead.toNat c, writeHead := (rb.writeHead + 1#32) % rb.size }
  else throw .bounds

/-! ## Runs -/

/-- A ring buffer, the scheduler, and what has been written and read. -/
structure RingWorld where
  ring : RingBuffer
  sched : Sched
  written : List Byte
  read : List Byte
  /-- The tasks that have got a unit of the semaphore and have not taken their byte yet. -/
  reading : List TaskId

/-- What happens next. -/
inductive RingOp
  /-- The running task calls `ringbuffer_read_byte`. -/
  | read
  /-- The running task takes its byte and returns from `ringbuffer_read_byte`. -/
  | readEnd
  /-- The running task or an interrupt handler calls `ringbuffer_write_byte`. -/
  | write (c : Byte)
  /-- Anything else. -/
  | other (op : SchedOp)
deriving DecidableEq, Repr

/-- The readers with a unit once the running task has called `semaphore_acquire`. -/
def readersAcquire (i : Nat) (x : RingWorld) : List TaskId :=
  if 0#32 < (x.sched.semaphores i).count then x.sched.current.toList ++ x.reading else x.reading

/-- The readers with a unit once `semaphore_release` has been called: it hands the unit to the first waiting task. -/
def readersRelease (i : Nat) (x : RingWorld) : List TaskId :=
  (x.sched.links.queues (.semaphore i)).first.toList ++ x.reading

/-- One operation on the ring buffer whose semaphore is the `i`-th, or on something else. -/
def ringStep (i : Nat) (x : RingWorld) : RingOp → Kernel RingWorld
  | .read => do
    let s ← semaphoreAcquire x.sched i
    return { x with sched := s, reading := readersAcquire i x }
  | .readEnd => do
    let task ← currentTask x.sched
    let (c, ring) ← takeByte x.ring
    return { x with ring := ring, read := x.read ++ [c], reading := x.reading.erase task }
  | .write c => do
    let ring ← putByte x.ring c
    let s ← semaphoreRelease x.sched i
    return { x with ring := ring, sched := s, written := x.written ++ [c], reading := readersRelease i x }
  | .other op => do
    let s ← schedStep x.sched op
    return { x with sched := s }

/-- The ring buffer after `ringbuffer_init`. -/
def ringStart (s : Sched) (i : Nat) (buffer : List Byte) (size : Word) : RingWorld :=
  ⟨(ringbufferInit s i buffer size).1, (ringbufferInit s i buffer size).2, [], [], []⟩

/-- A call of the scheduler that leaves the semaphore `i` alone. -/
def Apart (i : Nat) (op : SchedOp) : Prop :=
  op ≠ .semaphoreAcquire i ∧ op ≠ .semaphoreRelease i ∧ (∀ reason, op ≠ .taskBlock (.semaphore i) reason) ∧
    op ≠ .taskUnblockNext (.semaphore i)

/-- When an operation may happen. -/
def RingLegal (i : Nat) (x : RingWorld) : RingOp → Prop
  | .read => Legal x.sched (.semaphoreAcquire i)
  | .readEnd => ∃ t ∈ x.reading, x.sched.current = some t
  | .write _ => True
  | .other op => Legal x.sched op ∧ Apart i op

/-- The number of bytes written and not yet read. -/
def RingWorld.outstanding (x : RingWorld) : Nat := x.written.length - x.read.length

/-- A write leaves a cell of the buffer unused. -/
def HasSpace (x : RingWorld) : RingOp → Prop
  | .write _ => x.outstanding + 1 < x.ring.size.toNat
  | .read | .readEnd | .other _ => True

/-- The bytes come out as they went in, the positions tell how many are left, and so does the semaphore, whose units
are the bytes that no reader is about to take. -/
structure Agrees (i : Nat) (x : RingWorld) : Prop where
  fifo : x.read <+: x.written
  unread : (ringbufferUnread x.ring).toNat = x.outstanding
  count : (x.sched.semaphores i).count.toNat + x.reading.length = x.outstanding

/-! ## One operation -/

/-- **The invariant of a ring buffer** that holds the bytes `xs`. -/
structure RingSound (i : Nat) (x : RingWorld) (xs : List Byte) : Prop where
  sound : ∃ L c, Sound x.sched L c
  holds : Holds x.ring.buffer x.ring.readHead.toNat xs
  size : x.ring.buffer.length = x.ring.size.toNat
  writeHead : x.ring.writeHead.toNat = (x.ring.readHead.toNat + xs.length) % x.ring.size.toNat
  space : xs.length < x.ring.size.toNat
  written : x.written = x.read ++ xs
  units : (x.sched.semaphores i).count.toNat + x.reading.length = xs.length

/-- `ringbuffer_unread` is the distance of the two positions. -/
theorem ringbufferUnread_toNat {rb : RingBuffer} (hr : rb.readHead.toNat < rb.size.toNat)
    (hw : rb.writeHead.toNat < rb.size.toNat) :
    (ringbufferUnread rb).toNat = ringDistance rb.size.toNat rb.readHead.toNat rb.writeHead.toNat := by
  unfold ringbufferUnread ringDistance
  simp only [BitVec.lt_def]
  split
  · bv_omega
  · bv_omega

/-- A full buffer looks empty. -/
theorem ringbufferUnread_full {rb : RingBuffer} (hr : rb.readHead.toNat < rb.size.toNat)
    (hw : rb.writeHead.toNat = (rb.readHead.toNat + rb.size.toNat) % rb.size.toNat) :
    (ringbufferUnread rb).toNat = 0 := by
  rw [ringbufferUnread_toNat hr (by rw [hw]; exact Nat.mod_lt _ (by omega)), hw, ringDistance_full hr]

/-- `head += 1; head %= size`. -/
theorem head_succ {head size : Word} (h : head.toNat < size.toNat) :
    ((head + 1#32) % size).toNat = (head.toNat + 1) % size.toNat := by
  have hsum : (head + 1#32).toNat = head.toNat + 1 := by bv_omega
  rw [BitVec.toNat_umod, hsum]

/-- The buffer holds the bytes `xs`, and one cell at least is unused. -/
structure RingHolds (rb : RingBuffer) (xs : List Byte) : Prop where
  holds : Holds rb.buffer rb.readHead.toNat xs
  size : rb.buffer.length = rb.size.toNat
  writeHead : rb.writeHead.toNat = (rb.readHead.toNat + xs.length) % rb.size.toNat
  space : xs.length < rb.size.toNat

section Ring

variable {rb : RingBuffer} {xs : List Byte} {c : Byte}

theorem RingHolds.read_lt (h : RingHolds rb xs) : rb.readHead.toNat < rb.size.toNat := by
  rw [← h.size]; exact h.holds.head_lt

theorem RingHolds.write_lt (h : RingHolds rb xs) : rb.writeHead.toNat < rb.size.toNat := by
  rw [h.writeHead]; exact Nat.mod_lt _ (Nat.zero_lt_of_lt h.space)

/-- The positions tell the number of bytes. -/
theorem RingHolds.unread (h : RingHolds rb xs) : (ringbufferUnread rb).toNat = xs.length := by
  rw [ringbufferUnread_toNat h.read_lt h.write_lt, h.writeHead, ringDistance_eq h.read_lt h.space]

/-- The buffer after a byte has been put into it. -/
def RingBuffer.put (rb : RingBuffer) (xs : List Byte) (c : Byte) : RingBuffer :=
  { rb with
    buffer := rb.buffer.set ((rb.readHead.toNat + xs.length) % rb.buffer.length) c
    writeHead := (rb.writeHead + 1#32) % rb.size }

/-- `ringbuffer_write_byte` writes the next cell. -/
theorem RingHolds.putByte (h : RingHolds rb xs) (c : Byte) : putByte rb c = .ok (rb.put xs c) := by
  rw [Task.putByte, if_pos (by rw [h.size]; exact h.write_lt), RingBuffer.put, h.writeHead, h.size]
  rfl

/-- The position after a write. -/
theorem RingHolds.put_writeHead (h : RingHolds rb xs) (c : Byte) :
    (rb.put xs c).writeHead.toNat = (rb.readHead.toNat + (xs.length + 1)) % rb.size.toNat := by
  rw [RingBuffer.put, head_succ h.write_lt, h.writeHead, Nat.mod_add_mod, Nat.add_assoc]

/-- A byte more. -/
theorem RingHolds.put (h : RingHolds rb xs) (hspace : xs.length + 1 < rb.size.toNat) (c : Byte) :
    RingHolds (rb.put xs c) (xs ++ [c]) := by
  refine ⟨h.holds.push (by rw [h.size]; exact h.space) c, ?_, ?_, ?_⟩
  · exact (List.length_set ..).trans h.size
  · rw [List.length_append]; exact h.put_writeHead c
  · rw [List.length_append]; exact hspace

/-- A byte less. -/
theorem RingHolds.takeByte (h : RingHolds rb (c :: xs)) :
    takeByte rb = .ok (c, { rb with readHead := (rb.readHead + 1#32) % rb.size }) ∧
      RingHolds { rb with readHead := (rb.readHead + 1#32) % rb.size } xs := by
  obtain ⟨hbyte, hholds⟩ := h.holds.pop
  have hspace : xs.length + 1 < rb.size.toNat := h.space
  refine ⟨?_, ?_, h.size, ?_, Nat.lt_of_succ_lt hspace⟩
  · simp only [Task.takeByte, hbyte]
    rfl
  · rw [head_succ h.read_lt, ← h.size]; exact hholds
  · rw [head_succ h.read_lt, h.writeHead, Nat.mod_add_mod, List.length_cons]
    congr 1; omega

end Ring

section Step

variable {i : Nat} {x : RingWorld} {xs : List Byte} {c : Byte}

theorem RingSound.ring (h : RingSound i x xs) : RingHolds x.ring xs := ⟨h.holds, h.size, h.writeHead, h.space⟩

theorem RingSound.outstanding_eq (h : RingSound i x xs) : x.outstanding = xs.length := by
  rw [RingWorld.outstanding, h.written, List.length_append, Nat.add_sub_cancel_left]

/-- With the invariant the three descriptions agree. -/
theorem RingSound.agrees (h : RingSound i x xs) : Agrees i x := by
  refine ⟨⟨xs, h.written.symm⟩, ?_, ?_⟩
  · rw [h.ring.unread, h.outstanding_eq]
  · rw [h.outstanding_eq, h.units]

/-- The end of `ringbuffer_read_byte`: the reader has a unit, so there is a byte for it. -/
theorem readEnd_sound (h : RingSound i x xs) (hl : RingLegal i x .readEnd) :
    ∃ x' xs', ringStep i x .readEnd = .ok x' ∧ RingSound i x' xs' := by
  obtain ⟨t, ht, hcur⟩ := hl
  have hunits := h.units
  have hlen : 0 < x.reading.length := List.length_pos_of_mem ht
  cases xs with
  | nil =>
    rw [List.length_nil] at hunits
    omega
  | cons b xs =>
    obtain ⟨hbyte, hring⟩ := h.ring.takeByte
    rw [List.length_cons] at hunits
    refine ⟨{ x with
        ring := { x.ring with readHead := (x.ring.readHead + 1#32) % x.ring.size }, read := x.read ++ [b],
        reading := x.reading.erase t }, xs, ?_, h.sound, hring.holds, hring.size, hring.writeHead, hring.space, ?_, ?_⟩
    · simp only [ringStep, currentTask, hcur, ok_bind, hbyte]
      rfl
    · rw [h.written, List.append_assoc]; rfl
    · show (x.sched.semaphores i).count.toNat + (x.reading.erase t).length = xs.length
      rw [List.length_erase_of_mem ht]
      omega

/-- A write, with the unit counted or handed to a waiting reader. -/
theorem write_step (h : RingSound i x xs) (c : Byte) : ∃ s',
    ringStep i x (.write c) = .ok ⟨x.ring.put xs c, s', x.written ++ [c], x.read, readersRelease i x⟩ ∧
    (∃ L c, Sound s' L c) ∧
    (s'.semaphores i).count.toNat + (readersRelease i x).length = xs.length + 1 := by
  obtain ⟨L, d, hsound⟩ := h.sound
  have hunits := h.units
  have hspace := h.space
  have hlt := x.ring.size.isLt
  obtain ⟨s', hrun, hsound', hcount⟩ := semaphoreRelease_units hsound i x.reading (by omega)
  refine ⟨s', ?_, hsound', ?_⟩
  · rw [ringStep, h.ring.putByte c, ok_bind, hrun, ok_bind]
    rfl
  · rw [readersRelease, hcount, hunits]

theorem write_sound (h : RingSound i x xs) (hspace : HasSpace x (.write c)) :
    ∃ x', ringStep i x (.write c) = .ok x' ∧ RingSound i x' (xs ++ [c]) := by
  obtain ⟨s', hrun, hsound, hunits⟩ := write_step h c
  rw [HasSpace, h.outstanding_eq] at hspace
  have hring := h.ring.put hspace c
  refine ⟨_, hrun, hsound, hring.holds, hring.size, hring.writeHead, hring.space, ?_, ?_⟩
  · rw [h.written, List.append_assoc]
  · rw [List.length_append]; exact hunits

/-- **A write into the last cell** makes the buffer look empty. -/
theorem write_full (h : RingSound i x xs) (hfull : ¬ HasSpace x (.write c)) {x' : RingWorld}
    (hrun : ringStep i x (.write c) = .ok x') : ¬ Agrees i x' := by
  obtain ⟨s', hrun', -, -⟩ := write_step h c
  rw [HasSpace, h.outstanding_eq] at hfull
  have hspace := h.space
  have hsize : xs.length + 1 = x.ring.size.toNat := by omega
  rw [hrun', Except.ok.injEq] at hrun
  subst hrun
  intro hagrees
  have hhead := h.ring.put_writeHead c
  rw [hsize] at hhead
  have hfull : (ringbufferUnread (x.ring.put xs c)).toNat = 0 := ringbufferUnread_full h.ring.read_lt hhead
  have hzero := hagrees.unread.symm.trans hfull
  simp [RingWorld.outstanding, h.written] at hzero

/-- A call that leaves the ring buffer alone. -/
theorem RingSound.of_count (h : RingSound i x xs) {s : Sched} {reading : List TaskId} (hsound : ∃ L c, Sound s L c)
    (hcount : (s.semaphores i).count.toNat + reading.length =
      (x.sched.semaphores i).count.toNat + x.reading.length) :
    RingSound i { x with sched := s, reading := reading } xs :=
  ⟨hsound, h.holds, h.size, h.writeHead, h.space, h.written, hcount.trans h.units⟩

/-- The call of `ringbuffer_read_byte`: the task takes a unit or waits. -/
theorem read_sound (h : RingSound i x xs) (hl : RingLegal i x .read) :
    ∃ x', ringStep i x .read = .ok x' ∧ RingSound i x' xs := by
  obtain ⟨L, d, hsound⟩ := h.sound
  obtain ⟨s', hrun, hsound', hcount⟩ := semaphoreAcquire_units hsound i x.reading hl.1 hl.2
  exact ⟨_, by rw [ringStep, hrun]; rfl, h.of_count hsound' hcount⟩

theorem other_sound {op : SchedOp} (h : RingSound i x xs) (hl : RingLegal i x (.other op)) :
    ∃ x', ringStep i x (.other op) = .ok x' ∧ RingSound i x' xs := by
  obtain ⟨L, d, hsound⟩ := h.sound
  obtain ⟨hlegal, hacq, hrel, -, -⟩ := hl
  obtain ⟨s', L', d', hrun, hstep⟩ := schedStep_spec hsound hlegal
  refine ⟨_, by rw [ringStep, hrun]; rfl, h.of_count ⟨L', d', hstep.sound⟩ ?_⟩
  rw [hstep.semaphores, opSemaphores_untouched hacq hrel]

/-- **One operation** keeps the invariant, as long as writes find space. -/
theorem ringStep_sound {op : RingOp} (h : RingSound i x xs) (hl : RingLegal i x op) (hspace : HasSpace x op) :
    ∃ x' xs', ringStep i x op = .ok x' ∧ RingSound i x' xs' := by
  cases op with
  | read =>
    obtain ⟨x', hrun, h'⟩ := read_sound h hl
    exact ⟨x', xs, hrun, h'⟩
  | readEnd => exact readEnd_sound h hl
  | write c =>
    obtain ⟨x', hrun, h'⟩ := write_sound h hspace
    exact ⟨x', _, hrun, h'⟩
  | other op =>
    obtain ⟨x', hrun, h'⟩ := other_sound h hl
    exact ⟨x', xs, hrun, h'⟩

end Step

/-! ## Whole runs -/

section Runs

variable {i : Nat} {s : Sched} {L : QueuePtr → List TaskId} {c : Cpu} {buffer : List Byte} {size : Word}

/-- A ring buffer of at least one byte starts out empty. -/
theorem ringStart_sound (i : Nat) (hsound : Sound s L c) (hlen : buffer.length = size.toNat) (hsize : 0#32 < size) :
    RingSound i (ringStart s i buffer size) [] := by
  have hpos : 0 < size.toNat := hsize
  refine ⟨⟨L, c, hsound.setCount i 0#32⟩, holds_nil ?_, hlen, ?_, hpos, rfl, ?_⟩
  · exact hlen ▸ hpos
  · exact (Nat.zero_mod _).symm
  · simp [ringStart, ringbufferInit]

/-- The descriptions agree in a state the run reaches after some of its operations. -/
theorem ringSound_meets {ops : List RingOp} : ∀ {x : RingWorld} {xs : List Byte}, RingSound i x xs →
    StepsMeet (ringStep i) (RingLegal i) x ops →
    (∀ done rest, ops = done ++ rest → ∃ x', runSteps (ringStep i) x done = .ok x' ∧ Agrees i x') →
    StepsMeet (ringStep i) HasSpace x ops := by
  induction ops with
  | nil => exact fun _ _ _ => trivial
  | cons op ops ih =>
    intro x xs h hl hall
    obtain ⟨x₁, hrun, hagrees⟩ := hall [op] ops rfl
    have hrun₁ : ringStep i x op = .ok x₁ := by
      rw [runSteps, bind_eq_ok] at hrun
      obtain ⟨x₂, hx₂, hnil⟩ := hrun
      rw [runSteps, Except.ok.injEq] at hnil
      rw [hx₂, hnil]
    have hspace : HasSpace x op := by
      cases op with
      | write c => exact not_not.1 fun hfull => write_full h hfull hrun₁ hagrees
      | read => trivial
      | readEnd => trivial
      | other op => trivial
    obtain ⟨x₂, xs₂, hx₂, h₂⟩ := ringStep_sound h hl.1 hspace
    refine stepsMeet_cons hspace hx₂ (ih h₂ (hl.2 x₂ hx₂) fun done rest hops => ?_)
    obtain ⟨x', hrun', hx'⟩ := hall (op :: done) rest (by rw [hops, List.cons_append])
    exact ⟨x', by rw [← hrun', runSteps_cons hx₂], hx'⟩

/-- **When a ring buffer works.** In a run from `ringbuffer_init` of a buffer of at least one byte, the bytes read are
a prefix of the bytes written and `ringbuffer_unread`, the semaphore and the number of bytes written and not yet read
agree in every state, if and only if every write finds fewer than `size - 1` bytes outstanding. -/
theorem ringbuffer_agrees_iff (i : Nat) (hsound : Sound s L c) (hlen : buffer.length = size.toNat)
    (hsize : 0#32 < size) (ops : List RingOp)
    (hl : StepsMeet (ringStep i) (RingLegal i) (ringStart s i buffer size) ops) :
    (∀ done rest, ops = done ++ rest →
      ∃ x, runSteps (ringStep i) (ringStart s i buffer size) done = .ok x ∧ Agrees i x) ↔
    StepsMeet (ringStep i) HasSpace (ringStart s i buffer size) ops := by
  have hstart := ringStart_sound i hsound hlen hsize
  refine ⟨ringSound_meets hstart hl, fun hspace done rest hops => ?_⟩
  subst hops
  obtain ⟨x, hrun, xs, hx⟩ := runSteps_inv (I := fun _ x => ∃ xs, RingSound i x xs)
    (fun _ x op hI (hok : RingLegal i x op ∧ HasSpace x op) => by
      obtain ⟨xs, hx⟩ := hI
      obtain ⟨x', xs', hstep, hx'⟩ := ringStep_sound hx hok.1 hok.2
      exact ⟨x', hstep, xs', hx'⟩)
    done [] ⟨[], hstart⟩ (stepsMeet_and hl.append_left hspace.append_left)
  exact ⟨x, hrun, hx.agrees⟩

end Runs

/-- A task that waits for a byte, gets it from an interrupt handler, and finds another one later. -/
def readerRun : List RingOp :=
  [.other (.taskAdd 1), .other .taskingEnable, .read, .write 0x61#8, .other .idleWake, .readEnd, .write 0x62#8,
    .write 0x63#8, .read, .readEnd]

theorem readerRun_agrees :
    ∃ x, runSteps (ringStep 0) (ringStart (boot fun _ => 0#32) 0 [0, 0, 0] 3#32) readerRun = .ok x ∧ Agrees 0 x := by
  refine (ringbuffer_agrees_iff 0 (boot_sound _) rfl (by decide) readerRun ?_).2 ?_ readerRun [] (List.append_nil _).symm
  · refine stepsMeet_cons ⟨by simp [Legal, ringStart, ringbufferInit, boot], by simp [Apart]⟩ rfl ?_
    refine stepsMeet_cons ⟨⟨rfl, rfl, by decide⟩, by simp [Apart]⟩ rfl ?_
    refine stepsMeet_cons ⟨by decide, rfl⟩ rfl ?_
    apply stepsMeet_cons trivial rfl
    refine stepsMeet_cons ⟨⟨by decide, rfl⟩, by simp [Apart]⟩ rfl ?_
    refine stepsMeet_cons ⟨1, by decide, rfl⟩ rfl ?_
    apply stepsMeet_cons trivial rfl
    apply stepsMeet_cons trivial rfl
    refine stepsMeet_cons ⟨by decide, rfl⟩ rfl ?_
    exact stepsMeet_cons ⟨1, by decide, rfl⟩ rfl trivial
  · apply stepsMeet_cons trivial rfl
    apply stepsMeet_cons trivial rfl
    apply stepsMeet_cons trivial rfl
    refine stepsMeet_cons (show (1 : Nat) < 3 by decide) rfl ?_
    apply stepsMeet_cons trivial rfl
    apply stepsMeet_cons trivial rfl
    refine stepsMeet_cons (show (1 : Nat) < 3 by decide) rfl ?_
    refine stepsMeet_cons (show (2 : Nat) < 3 by decide) rfl ?_
    apply stepsMeet_cons trivial rfl
    exact stepsMeet_cons trivial rfl trivial

/-- Four bytes come in while nobody reads. -/
def fillRun : List RingOp :=
  [.other (.taskAdd 1), .other .taskingEnable, .write 0x61#8, .write 0x62#8, .write 0x63#8, .write 0x64#8]

/-- A buffer of four bytes looks empty when four bytes are in it; after a fifth the first one read is the fifth. -/
theorem fillRun_overrun :
    StepsMeet (ringStep 0) (RingLegal 0) (ringStart (boot fun _ => 0#32) 0 [0, 0, 0, 0] 4#32)
      (fillRun ++ [.write 0x65#8, .read, .readEnd]) ∧
    (∃ x, runSteps (ringStep 0) (ringStart (boot fun _ => 0#32) 0 [0, 0, 0, 0] 4#32) fillRun = .ok x ∧
      x.reading = [] ∧ ringbufferUnread x.ring = 0#32 ∧ (x.sched.semaphores 0).count = 4#32 ∧ x.outstanding = 4) ∧
    ∃ x, runSteps (ringStep 0) (ringStart (boot fun _ => 0#32) 0 [0, 0, 0, 0] 4#32)
        (fillRun ++ [.write 0x65#8, .read, .readEnd]) = .ok x ∧
      x.read = [0x65#8] ∧ ¬ x.read <+: x.written := by
  refine ⟨?_, ⟨_, rfl, rfl, rfl, rfl, rfl⟩, ⟨_, rfl, rfl, by decide⟩⟩
  refine stepsMeet_cons ⟨by simp [Legal, ringStart, ringbufferInit, boot], by simp [Apart]⟩ rfl ?_
  refine stepsMeet_cons ⟨⟨rfl, rfl, by decide⟩, by simp [Apart]⟩ rfl ?_
  apply stepsMeet_cons trivial rfl
  apply stepsMeet_cons trivial rfl
  apply stepsMeet_cons trivial rfl
  apply stepsMeet_cons trivial rfl
  apply stepsMeet_cons trivial rfl
  refine stepsMeet_cons ⟨by decide, rfl⟩ rfl ?_
  exact stepsMeet_cons ⟨1, by decide, rfl⟩ rfl trivial

end Myunix.Task
