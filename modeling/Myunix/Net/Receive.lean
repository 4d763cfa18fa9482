import Myunix.Lists
import Myunix.Task.RingBuffer

/-!
# Received packets (`net/e1000.c`)

The interrupt handler of the network card puts the packets of all finished descriptors into a list and releases a
semaphore once for each. `e1000_receive_packet` acquires the semaphore, which may have to wait, and then takes the
first packet of the list: `NicOp.receive` is the call of `semaphore_acquire`, `NicOp.receiveEnd` the rest, once the task
runs again.

`packet_hand_over` says that a reader with a unit of the semaphore finds a packet, and that the packets come out in the
order they were put in. The registers of the card and the contents of packets are left out.
-/

namespace Myunix.Net

open Lib Myunix.Lists Myunix.Task

/-! ## The functions -/

/-- A descriptor that is done, with what the heap returns for its packet, the data of the packet and the list node. -/
structure RxDesc where
  length : BitVec 16
  packet : Option Addr
  data : Option Addr
  node : Option Addr
deriving DecidableEq, Repr

/-- The receive queue of the card and the scheduler. -/
structure Nic where
  lists : ListMemory
  rxQueue : Addr
  sched : Sched
  /-- The list nodes that have been allocated and not freed. -/
  live : List Addr
  /-- The packets put into the queue so far. -/
  inserted : List Addr
  /-- What `e1000_receive_packet` has returned so far. -/
  returned : List (Option Addr)
  /-- The tasks that have got a unit of the semaphore and have not taken their packet yet. -/
  receiving : List TaskId

/-- A round of the loop in `e1000_irq`; `rx_sem` is the `i`-th semaphore. -/
def receiveDesc (i : Nat) (x : Nic) (d : RxDesc) : Kernel Nic := do
  kassert (d.length.toNat ≤ 4096)
  kassert (d.length ≠ 0#16)
  match d.packet with
  | none => throw .assertion
  | some packet =>
    kassert (d.data ≠ none)
    let (node, lists) ← listInsert x.lists (some x.rxQueue) (some packet) d.node
    let s ← semaphoreRelease x.sched i
    return { x with
      lists := lists
      sched := s
      live := x.live ++ [node]
      inserted := x.inserted ++ [packet]
      receiving := (x.sched.links.queues (.semaphore i)).first.toList ++ x.receiving }

/-- `e1000_irq` with the interrupt cause, the descriptors that are done, and what is in `should_return` when nothing has
been assigned to it. -/
def e1000Irq (i : Nat) (x : Nic) (status : Word) (descs : List RxDesc) (junk : Bool) : Kernel Nic := do
  if status = 0#32 then return x
  else
    let x ← if status &&& 0x80#32 ≠ 0#32 then descs.foldlM (receiveDesc i) x else pure x
    let shouldReturn :=
      if status &&& 0x40#32 ≠ 0#32 then false
      else if status &&& 0x97#32 ≠ 0#32 then true
      else junk
    kassert (shouldReturn = true)
    return x

/-- `e1000_receive_packet` after its `semaphore_acquire`. -/
def takePacket (x : Nic) : Kernel (Option Addr × Nic) := do
  let out := (x.lists.lists x.rxQueue).head
  let (packet, lists) ← listDequeue x.lists (some x.rxQueue)
  return (packet, { x with lists := lists, live := x.live.filter fun n => some n ≠ out })

/-! ## Runs -/

/-- What happens next. -/
inductive NicOp
  /-- The running task calls `e1000_receive_packet`. -/
  | receive
  /-- The running task takes its packet and returns from `e1000_receive_packet`. -/
  | receiveEnd
  /-- An interrupt of the card. -/
  | irq (status : Word) (descs : List RxDesc) (junk : Bool)
  /-- Anything else. -/
  | other (op : SchedOp)
deriving DecidableEq, Repr

/-- One operation. -/
def nicStep (i : Nat) (x : Nic) : NicOp → Kernel Nic
  | .receive => do
    let s ← semaphoreAcquire x.sched i
    let receiving := if 0#32 < (x.sched.semaphores i).count then x.sched.current.toList ++ x.receiving else x.receiving
    return { x with sched := s, receiving := receiving }
  | .receiveEnd => do
    let task ← currentTask x.sched
    let (packet, x) ← takePacket x
    return { x with returned := x.returned ++ [packet], receiving := x.receiving.erase task }
  | .irq status descs junk => e1000Irq i x status descs junk
  | .other op => do
    let s ← schedStep x.sched op
    return { x with sched := s }

/-- When an operation may happen. The heap gives out addresses that are not in use. -/
def NicLegal (i : Nat) (x : Nic) : NicOp → Prop
  | .receive => Legal x.sched (.semaphoreAcquire i)
  | .receiveEnd => ∃ t ∈ x.receiving, x.sched.current = some t
  | .irq _ descs _ => (x.live ++ descs.filterMap RxDesc.node).Nodup
  | .other op => Legal x.sched op ∧ Apart i op

/-- The card after `e1000_device_init` has made its queue, at an address of the heap, and its semaphore. -/
def nicStart (s : Sched) (i : Nat) (lists : ListMemory) (rxQueue : Addr) : Nic where
  lists := lists.setList rxQueue fun _ => ⟨none, none, 0#32⟩
  rxQueue := rxQueue
  sched := s.setSemaphore i ⟨0#32, (s.semaphores i).lock⟩
  live := []
  inserted := []
  returned := []
  receiving := []

/-- **The invariant**: the units of the semaphore are the packets that no reader is about to take. -/
structure NicSound (i : Nat) (x : Nic) : Prop where
  sound : ∃ L c, Sound x.sched L c
  queue : IsList x.lists x.rxQueue x.live
  packets : x.inserted.map some = x.returned ++ x.lists.values x.live
  units : (x.sched.semaphores i).count.toNat + x.receiving.length = x.live.length

/-! ## One operation -/

section Step

variable {i : Nat} {x x' : Nic}

/-- A packet comes in. -/
theorem receiveDesc_sound {d : RxDesc} (h : NicSound i x) (hfresh : ∀ node, d.node = some node → node ∉ x.live)
    (hrun : receiveDesc i x d = .ok x') : NicSound i x' ∧ x'.live = x.live ++ d.node.toList := by
  obtain ⟨L, c, hsound⟩ := h.sound
  simp only [receiveDesc, bind_eq_ok] at hrun
  obtain ⟨-, -, -, -, hrun⟩ := hrun
  cases hpacket : d.packet with
  | none => simp [hpacket] at hrun
  | some packet =>
    simp only [hpacket, bind_eq_ok, pure_eq_ok, Prod.exists] at hrun
    obtain ⟨-, -, node', lists', hinsert, s', hrelease, rfl⟩ := hrun
    cases hnode : d.node with
    | none => simp [hnode, listInsert] at hinsert
    | some node =>
      have hnotin := hfresh node hnode
      obtain ⟨lists, hinsert', hqueue, hvalues, -⟩ := listInsert_ok (v := packet) h.queue hnotin
      rw [hnode, hinsert', Except.ok.injEq, Prod.mk.injEq] at hinsert
      obtain ⟨rfl, rfl⟩ := hinsert
      have hlength := addr_length_lt hqueue.nodup
      have hunits := h.units
      rw [List.length_append, List.length_singleton] at hlength
      obtain ⟨s, hrelease', hsound', hcount⟩ := semaphoreRelease_units hsound i x.receiving (by omega)
      rw [hrelease', Except.ok.injEq] at hrelease
      subst hrelease
      refine ⟨⟨hsound', hqueue, ?_, ?_⟩, rfl⟩
      · rw [List.map_append, h.packets, hvalues, List.append_assoc]
        rfl
      · rw [hcount, hunits, List.length_append, List.length_singleton]

/-- The packets of an interrupt come in one after the other. -/
theorem receiveDescs_sound (descs : List RxDesc) : ∀ {x : Nic}, NicSound i x →
    (x.live ++ descs.filterMap RxDesc.node).Nodup → descs.foldlM (receiveDesc i) x = .ok x' → NicSound i x' := by
  induction descs with
  | nil =>
    intro x h _ hrun
    rw [List.foldlM_nil, pure_eq_ok] at hrun
    rw [← hrun]
    exact h
  | cons d descs ih =>
    intro x h hnodup hrun
    rw [List.foldlM_cons, bind_eq_ok] at hrun
    obtain ⟨x₁, hfirst, hrest⟩ := hrun
    have hsplit : x.live ++ (d :: descs).filterMap RxDesc.node =
        (x.live ++ d.node.toList) ++ descs.filterMap RxDesc.node := by
      cases hnode : d.node with
      | none => simp [hnode]
      | some node => simp [hnode]
    rw [hsplit] at hnodup
    have hfresh : ∀ node, d.node = some node → node ∉ x.live := by
      intro node hnode hmem
      rw [hnode] at hnodup
      have hdisj := (List.nodup_append.1 (List.nodup_append.1 hnodup).1).2.2
      exact hdisj node hmem node (by simp) rfl
    obtain ⟨h₁, hlive⟩ := receiveDesc_sound h hfresh hfirst
    rw [← hlive] at hnodup
    exact ih h₁ hnodup hrest

theorem irq_sound {status : Word} {descs : List RxDesc} {junk : Bool} (h : NicSound i x)
    (hl : NicLegal i x (.irq status descs junk)) (hrun : nicStep i x (.irq status descs junk) = .ok x') :
    NicSound i x' := by
  simp only [nicStep, e1000Irq] at hrun
  split at hrun
  · rw [pure_eq_ok] at hrun
    rw [← hrun]
    exact h
  · split at hrun
    · simp only [bind_eq_ok, pure_eq_ok] at hrun
      obtain ⟨x₁, hdescs, -, -, rfl⟩ := hrun
      exact receiveDescs_sound descs h hl hdescs
    · simp only [bind_eq_ok, pure_eq_ok] at hrun
      obtain ⟨x₁, rfl, -, -, rfl⟩ := hrun
      exact h

/-- **A reader with a unit finds a packet.** -/
theorem receiveEnd_sound (h : NicSound i x) (hl : NicLegal i x .receiveEnd) :
    (x.lists.lists x.rxQueue).head ≠ none ∧ ∃ x', nicStep i x .receiveEnd = .ok x' ∧ NicSound i x' := by
  obtain ⟨t, ht, hcur⟩ := hl
  have hunits := h.units
  have hpos : 0 < x.receiving.length := List.length_pos_of_mem ht
  cases hlive : x.live with
  | nil =>
    rw [hlive, List.length_nil] at hunits
    omega
  | cons node rest =>
    have hqueue := h.queue
    rw [hlive] at hqueue
    have hhead : (x.lists.lists x.rxQueue).head = some node := hqueue.head
    obtain ⟨hnode, -⟩ := List.nodup_cons.1 hqueue.nodup
    obtain ⟨lists, hdequeue, hqueue', hvalues⟩ := listDequeue_ok hqueue
    have hfilter : x.live.filter (fun n => some n ≠ some node) = rest := by
      rw [hlive, List.filter_cons_of_neg (by simp), List.filter_eq_self]
      intro n hn
      have hne : n ≠ node := ne_of_mem_of_not_mem hn hnode
      simpa using hne
    rw [hlive, List.length_cons] at hunits
    refine ⟨by simp [hhead], { x with
      lists := lists, live := rest, returned := x.returned ++ [(x.lists.nodes node).value],
      receiving := x.receiving.erase t }, ?_, h.sound, hqueue', ?_, ?_⟩
    · simp only [nicStep, currentTask, hcur, takePacket, hhead, hdequeue, hfilter, ok_bind]
      rfl
    · have hpackets := h.packets
      rw [hlive] at hpackets
      rw [hpackets, hvalues, List.append_assoc]
      rfl
    · show (x.sched.semaphores i).count.toNat + (x.receiving.erase t).length = rest.length
      rw [List.length_erase_of_mem ht]
      omega

/-- **One operation** keeps the invariant. -/
theorem nicStep_sound {op : NicOp} (h : NicSound i x) (hl : NicLegal i x op) (hrun : nicStep i x op = .ok x') :
    NicSound i x' := by
  obtain ⟨L, c, hsound⟩ := h.sound
  cases op with
  | receive =>
    obtain ⟨s, hacquire, hsound', hcount⟩ := semaphoreAcquire_units hsound i x.receiving hl.1 hl.2
    simp only [nicStep, hacquire, ok_bind, pure_eq_ok] at hrun
    subst hrun
    exact ⟨hsound', h.queue, h.packets, hcount.trans h.units⟩
  | receiveEnd =>
    obtain ⟨-, x₁, hrun', h₁⟩ := receiveEnd_sound h hl
    rw [hrun', Except.ok.injEq] at hrun
    rw [← hrun]
    exact h₁
  | irq status descs junk => exact irq_sound h hl hrun
  | other op =>
    obtain ⟨hlegal, hacq, hrel, -, -⟩ := hl
    obtain ⟨s', L', d', hstep, hstepped⟩ := schedStep_spec hsound hlegal
    simp only [nicStep, hstep, ok_bind, pure_eq_ok] at hrun
    subst hrun
    refine ⟨⟨L', d', hstepped.sound⟩, h.queue, h.packets, ?_⟩
    rw [hstepped.semaphores, opSemaphores_untouched hacq hrel]
    exact h.units

/-- A new queue is empty. -/
theorem nicStart_sound {s : Sched} {L : QueuePtr → List TaskId} {c : Cpu} (hsound : Sound s L c) (i : Nat)
    (lists : ListMemory) (rxQueue : Addr) : NicSound i (nicStart s i lists rxQueue) := by
  refine ⟨⟨L, c, hsound.setCount i 0#32⟩, ⟨List.nodup_nil, ?_, ?_, ?_, trivial, by simp [nicStart]⟩, rfl, ?_⟩
  · simp [nicStart, ListMemory.setList]
  · simp [nicStart, ListMemory.setList]
  · simp [nicStart, ListMemory.setList]
  · simp [nicStart]

end Step

/-- **Packet hand-over.** In every state of a run from the initialization of the card, the packets returned are the
first ones of the packets inserted, in the same order; and a task that is about to take its packet finds the queue not
empty and returns. -/
theorem packet_hand_over (s : Sched) (L : QueuePtr → List TaskId) (c : Cpu) (hsound : Sound s L c) (i : Nat)
    (lists : ListMemory) (rxQueue : Addr) (ops : List NicOp)
    (hl : StepsMeet (nicStep i) (NicLegal i) (nicStart s i lists rxQueue) ops) (x : Nic)
    (hrun : runSteps (nicStep i) (nicStart s i lists rxQueue) ops = .ok x) :
    x.returned <+: x.inserted.map some ∧
      (NicLegal i x .receiveEnd → (x.lists.lists x.rxQueue).head ≠ none ∧ ∃ x', nicStep i x .receiveEnd = .ok x') := by
  have h : NicSound i x :=
    runSteps_keeps (fun _ _ _ hI hok hstep => nicStep_sound hI hok hstep) ops (nicStart_sound hsound i lists rxQueue) hl
      hrun
  refine ⟨⟨_, h.packets.symm⟩, fun hlegal => ?_⟩
  obtain ⟨hhead, x', hstep, -⟩ := receiveEnd_sound h hlegal
  exact ⟨hhead, x', hstep⟩

/-- A task waits for a packet; an interrupt brings two, the second stays in the queue. -/
def receiverRun : List NicOp :=
  [.other (.taskAdd 1), .other .taskingEnable, .receive,
    .irq 0x80#32
      [⟨60#16, some (addrAt 0x100#32), some (addrAt 0x200#32), some (addrAt 0x300#32)⟩,
        ⟨64#16, some (addrAt 0x110#32), some (addrAt 0x210#32), some (addrAt 0x310#32)⟩] false,
    .other .idleWake]

theorem receiverRun_hand_over : ∃ x,
    runSteps (nicStep 0) (nicStart (boot fun _ => 0#32) 0 noLists (addrAt 0x1000#32)) (receiverRun ++ [.receiveEnd]) =
        .ok x ∧
      x.returned = [some (addrAt 0x100#32)] ∧ x.returned <+: x.inserted.map some := by
  refine ⟨_, rfl, rfl, ?_⟩
  refine (packet_hand_over (boot fun _ => 0#32) _ _ (boot_sound _) 0 noLists (addrAt 0x1000#32)
    (receiverRun ++ [.receiveEnd]) ?_ _ rfl).1
  refine stepsMeet_cons ⟨by simp [Legal, nicStart, boot], by simp [Apart]⟩ rfl ?_
  refine stepsMeet_cons ⟨⟨rfl, rfl, by decide⟩, by simp [Apart]⟩ rfl ?_
  refine stepsMeet_cons ⟨by decide, rfl⟩ rfl ?_
  refine stepsMeet_cons (show List.Nodup _ by decide) rfl ?_
  refine stepsMeet_cons ⟨⟨by decide, rfl⟩, by simp [Apart]⟩ rfl ?_
  exact stepsMeet_cons ⟨1, by decide, rfl⟩ rfl trivial

end Myunix.Net
