import Myunix.Base
import Myunix.CString
import Myunix.Lib.Slots

/-!
# The rings of the network card (`net/e1000.c`)

The driver and the card share two rings of descriptors. The card moves the head of a ring and the driver moves its tail,
and both read the other one's position at any time: the runs here are all interleavings of the card with the handler
`e1000_irq`, statement by statement, and with `e1000_send_packet`. The card is as its manual has it: it uses the
descriptors from the head to the one before the tail, and there are none when the two are equal.

* `rx_step`: a step of either party keeps the packets in their order.
* **`rx_runs`**: what the driver has put into its queue and what waits in the ring is what the card has accepted. The
  interrupt handler stops the kernel where the ring is full when it looks, where it cannot take a packet, and at its end
  where the card reports an overrun.
* **`tx_runs`**: packets are sent in order as long as fewer than seven wait; another one lets the whole ring disappear.
-/

namespace Myunix.Net

open Lib

/-! ## Receiving -/

/-- `E1000_NUM_RX_DESC`. -/
def e1000NumRxDesc : Nat := 32

/-- What of `e1000_rx_desc_t` both parties use: bit 0 of `status`, and the `length` bytes in the buffer. -/
structure RxDescr where
  done : Bool
  data : List Byte
deriving DecidableEq, Repr

/-- Where `e1000_irq` is. -/
inductive IrqPc
  /-- No interrupt is being handled. -/
  | idle
  /-- At the top of the loop. -/
  | top
  /-- About to read the status of a descriptor. -/
  | look (rxIndex : Nat)
  /-- About to copy the packet. -/
  | copy (rxIndex : Nat)
  /-- About to write the tail. -/
  | advance (rxIndex : Nat)
  /-- Behind the receive loop. -/
  | finish
deriving DecidableEq, Repr

/-- The registers `E1000_REG_RX_DESC_HEAD` and `E1000_REG_RX_DESC_TAIL`, the descriptors, where the handler is, its
variable `status`, what is in its variable `should_return` when nothing has been assigned to it, the packets that have
been put into `rx_queue`, and those that the card has accepted. -/
structure RxRing where
  head : Nat
  tail : Nat
  rx : List RxDescr
  pc : IrqPc
  status : Word
  junk : Bool
  queue : List (List Byte)
  accepted : List (List Byte)
deriving DecidableEq, Repr

/-- Whether the heap has memory for a `packet_t`, for its data and for the node of the list. -/
structure Grants where
  packet : Bool
  data : Bool
  node : Bool
deriving DecidableEq, Repr

/-- The heap has memory for all of it. -/
def Grants.all : Grants := ⟨true, true, true⟩

/-- What happens next. -/
inductive RxEvent
  /-- The card receives a packet. -/
  | packet (data : List Byte)
  /-- An interrupt of the card, with the causes it reports. -/
  | irq (status : Word) (junk : Bool)
  /-- The next statement of the interrupt handler, with what it gets from the heap. -/
  | driver (heap : Grants)
deriving DecidableEq, Repr

/-- The card: without a descriptor the packet is dropped. -/
def cardReceive (data : List Byte) (s : RxRing) : RxRing :=
  if s.head ≠ s.tail then { s with
    rx := s.rx.set s.head ⟨true, data⟩
    head := (s.head + 1) % e1000NumRxDesc
    accepted := s.accepted ++ [data] }
  else s

/-- The beginning of `e1000_irq`, up to the receive loop. Without a cause it returns `IRQ_IGNORED`. -/
def irqEnter (status : Word) (junk : Bool) (s : RxRing) : RxRing :=
  if status = 0#32 then s
  else { s with pc := if status &&& 0x80#32 ≠ 0#32 then .top else .finish, status := status, junk := junk }

/-- `should_return` at the end of `e1000_irq`. -/
def shouldReturn (status : Word) (junk : Bool) : Bool :=
  if status &&& 0x40#32 ≠ 0#32 then false
  else if status &&& 0x97#32 ≠ 0#32 then true
  else junk

/-- A statement of `e1000_irq` from the receive loop on. -/
def irqStatement (heap : Grants) (s : RxRing) : Kernel RxRing :=
  match s.pc with
  | .idle => .ok s
  | .top => do
    kassert (s.tail ≠ s.head)
    return { s with pc := .look ((s.tail + 1) % e1000NumRxDesc) }
  | .look i =>
    match s.rx[i]? with
    | some d => .ok (if d.done then { s with pc := .copy i } else { s with pc := .finish })
    | none => .error .bounds
  | .copy i =>
    match s.rx[i]? with
    | some d => do
      kassert (d.data.length ≤ 4096)
      kassert (d.data.length ≠ 0)
      kassert (heap.packet = true)
      kassert (heap.data = true)
      -- in `list_insert`
      kassert (heap.node = true)
      return { s with rx := s.rx.set i { d with done := false }, queue := s.queue ++ [d.data], pc := .advance i }
    | none => .error .bounds
  | .advance i => .ok { s with tail := i, pc := .top }
  | .finish => do
    kassert (shouldReturn s.status s.junk = true)
    return { s with pc := .idle }

/-- A step. The handler is not interrupted by its own interrupt. -/
def rxStep (s : RxRing) : RxEvent → Kernel RxRing
  | .packet data => .ok (cardReceive data s)
  | .irq status junk => .ok (if s.pc = .idle then irqEnter status junk s else s)
  | .driver heap => irqStatement heap s

/-- The ring as `e1000_init_rx` makes it. -/
def e1000InitRx : RxRing where
  head := 0
  tail := e1000NumRxDesc - 1
  rx := List.replicate e1000NumRxDesc ⟨false, []⟩
  pc := .idle
  status := 0#32
  junk := false
  queue := []
  accepted := []

/-- The packet of a descriptor that is done. -/
def RxDescr.packet (d : RxDescr) : Option (List Byte) := if d.done then some d.data else none

/-- The descriptor behind the last one that the driver has taken. -/
def RxRing.first (s : RxRing) : Nat :=
  match s.pc with
  | .advance i => (i + 1) % e1000NumRxDesc
  | _ => (s.tail + 1) % e1000NumRxDesc

/-- How many descriptors the driver has taken without telling the card. -/
def RxRing.taken (s : RxRing) : Nat :=
  match s.pc with
  | .advance _ => 1
  | _ => 0

/-- The handler works on the descriptor behind the tail. -/
def RxRing.AtTail (s : RxRing) (waiting : List (List Byte)) : Prop :=
  match s.pc with
  | .idle => True
  | .top => True
  | .look i => i = (s.tail + 1) % e1000NumRxDesc
  | .copy i => i = (s.tail + 1) % e1000NumRxDesc ∧ waiting ≠ []
  | .advance i => i = (s.tail + 1) % e1000NumRxDesc
  | .finish => True

/-- **The invariant** of the ring, with the packets that wait in it. -/
structure RxSound (s : RxRing) (waiting : List (List Byte)) : Prop where
  size : s.rx.length = e1000NumRxDesc
  tail_lt : s.tail < e1000NumRxDesc
  slots : Slots (s.rx.map RxDescr.packet) s.first waiting
  head : s.head = (s.first + waiting.length) % e1000NumRxDesc
  room : waiting.length + s.taken < e1000NumRxDesc
  place : s.AtTail waiting
  packets : s.queue ++ waiting = s.accepted

/-- The handler does not take the packet `data`. -/
def Refused (heap : Grants) (data : List Byte) : Prop := data = [] ∨ 4096 < data.length ∨ heap ≠ .all

/-- When the next statement of the handler stops the kernel: the ring is full, the packet is refused, or the card
reports an overrun or nothing that the handler knows. -/
def Overwhelmed (heap : Grants) (s : RxRing) (waiting : List (List Byte)) : Prop :=
  s.pc = .top ∧ waiting.length = e1000NumRxDesc - 1 ∨
    (∃ i data rest, s.pc = .copy i ∧ waiting = data :: rest ∧ Refused heap data) ∨
    s.pc = .finish ∧ shouldReturn s.status s.junk = false

section Receive

variable {s s' : RxRing} {waiting : List (List Byte)} {data : List Byte} {i : Nat} {heap : Grants}

theorem e1000InitRx_sound : RxSound e1000InitRx [] := by
  refine ⟨rfl, by decide, ?_, rfl, by decide, trivial, rfl⟩
  exact slots_nil (n := 32) (show 0 < 32 by decide)

/-- The ring is full where head and tail are the same. -/
theorem RxSound.full_iff (h : RxSound s waiting) : s.head = s.tail ↔ waiting.length + s.taken = e1000NumRxDesc - 1 := by
  obtain ⟨-, htail, -, hhead, hroom, hplace, -⟩ := h
  unfold RxRing.first RxRing.taken RxRing.AtTail at *
  cases hpc : s.pc with
  | advance i =>
    simp only [hpc, e1000NumRxDesc] at *
    omega
  | idle | top | look i | copy i | finish =>
    simp only [hpc, e1000NumRxDesc] at *
    omega

/-- The card brings a packet, if there is a descriptor for it. -/
theorem cardReceive_sound (h : RxSound s waiting) (data : List Byte) :
    RxSound (cardReceive data s) (if s.head = s.tail then waiting else waiting ++ [data]) := by
  have hfull_iff := h.full_iff
  unfold cardReceive
  by_cases hfull : s.head = s.tail
  · rw [if_neg (not_not.2 hfull), if_pos hfull]
    exact h
  · rw [if_pos hfull, if_neg hfull]
    obtain ⟨hsize, htail, hslots, hhead, hroom, hplace, hpackets⟩ := h
    have hlen : (s.rx.map RxDescr.packet).length = e1000NumRxDesc := by rw [List.length_map, hsize]
    have hspare : waiting.length + s.taken + 1 < e1000NumRxDesc := by omega
    refine ⟨by rw [List.length_set]; exact hsize, htail, ?_, ?_, ?_, ?_, ?_⟩
    · have hpush := hslots.push (by omega) data
      rw [hlen, ← hhead] at hpush
      rw [List.map_set]
      exact hpush
    · change (s.head + 1) % e1000NumRxDesc = (s.first + (waiting ++ [data]).length) % e1000NumRxDesc
      rw [hhead, List.length_append, List.length_singleton, Nat.mod_add_mod, Nat.add_assoc]
    · rw [List.length_append, List.length_singleton]
      change waiting.length + 1 + s.taken < e1000NumRxDesc
      omega
    · unfold RxRing.AtTail at hplace ⊢
      cases hpc : s.pc with
      | copy i =>
        simp only [hpc] at hplace ⊢
        exact ⟨hplace.1, by simp⟩
      | idle | top | finish => trivial
      | look i | advance i =>
        simp only [hpc] at hplace ⊢
        exact hplace
    · change s.queue ++ (waiting ++ [data]) = s.accepted ++ [data]
      rw [← List.append_assoc, hpackets]

/-- The descriptor behind the tail. -/
theorem RxSound.look (h : RxSound s waiting) :
    ∃ d, s.rx[s.first]? = some d ∧ d.packet = waiting.head? := by
  have hlook := h.slots.look
  rw [List.getElem?_map, Option.map_eq_some_iff] at hlook
  exact hlook

/-- At the top of the loop the handler asserts that the ring is not full. -/
theorem irqTop_sound (heap : Grants) (h : RxSound s waiting) (hpc : s.pc = .top) :
    (waiting.length = e1000NumRxDesc - 1 ∧ irqStatement heap s = .error .assertion) ∨
    (waiting.length ≠ e1000NumRxDesc - 1 ∧ ∃ i, irqStatement heap s = .ok { s with pc := .look i } ∧
      RxSound { s with pc := .look i } waiting) := by
  have hfull_iff := h.full_iff
  obtain ⟨hsize, htail, hslots, hhead, hroom, -, hpackets⟩ := h
  have htaken : s.taken = 0 := by rw [RxRing.taken, hpc]
  rw [RxRing.first, hpc] at hslots hhead
  rw [htaken] at hroom hfull_iff
  unfold irqStatement
  rw [hpc]
  by_cases hfull : s.tail = s.head
  · refine Or.inl ⟨hfull_iff.1 hfull.symm, ?_⟩
    simp only [assert_neg (not_not.2 hfull), error_bind]
  · refine Or.inr ⟨fun hlen => hfull (hfull_iff.2 hlen).symm, _, assert_bind hfull, ?_⟩
    exact ⟨hsize, htail, hslots, hhead, hroom, rfl, hpackets⟩

/-- A descriptor that is not done ends the loop. -/
theorem irqLook_sound (heap : Grants) (h : RxSound s waiting) (hpc : s.pc = .look i) :
    irqStatement heap s = .ok { s with pc := if waiting = [] then .finish else .copy i } ∧
      RxSound { s with pc := if waiting = [] then .finish else .copy i } waiting := by
  obtain ⟨d, hd, hpacket⟩ := h.look
  obtain ⟨hsize, htail, hslots, hhead, hroom, hplace, hpackets⟩ := h
  have htaken : s.taken = 0 := by rw [RxRing.taken, hpc]
  rw [RxRing.AtTail, hpc] at hplace
  rw [RxRing.first, hpc] at hslots hhead hd
  rw [htaken] at hroom
  unfold irqStatement
  rw [hpc]
  simp only [show s.rx[i]? = some d from hplace ▸ hd]
  rw [RxDescr.packet] at hpacket
  cases hdone : d.done with
  | false =>
    rw [hdone] at hpacket
    have hnil : waiting = [] := List.head?_eq_none_iff.1 hpacket.symm
    rw [if_pos hnil]
    exact ⟨rfl, hsize, htail, hslots, hhead, hroom, trivial, hpackets⟩
  | true =>
    rw [hdone] at hpacket
    have hne : waiting ≠ [] := fun hnil => by
      rw [hnil] at hpacket
      cases hpacket
    rw [if_neg hne]
    exact ⟨rfl, hsize, htail, hslots, hhead, hroom, ⟨hplace, hne⟩, hpackets⟩

/-- The statement that copies a packet, where the descriptor is `d`. -/
theorem irqCopy_eq (heap : Grants) {d : RxDescr} (hpc : s.pc = .copy i) (hd : s.rx[i]? = some d) :
    (Refused heap d.data ∧ irqStatement heap s = .error .assertion) ∨
    (¬ Refused heap d.data ∧ irqStatement heap s =
      .ok { s with rx := s.rx.set i { d with done := false }, queue := s.queue ++ [d.data], pc := .advance i }) := by
  obtain ⟨packet, data, node⟩ := heap
  unfold irqStatement Refused
  rw [hpc]
  simp only [hd]
  by_cases hlarge : d.data.length ≤ 4096
  · by_cases hempty : d.data.length = 0
    · refine Or.inl ⟨Or.inl (List.length_eq_zero_iff.1 hempty), ?_⟩
      simp only [assert_bind hlarge, assert_neg (not_not.2 hempty), error_bind]
    · have hne : d.data ≠ [] := fun hnil => hempty (List.length_eq_zero_iff.2 hnil)
      rw [assert_bind hlarge, assert_bind hempty]
      cases packet <;> cases data <;> cases node <;> simp [Grants.all, hne, Nat.not_lt.2 hlarge, assert]
  · refine Or.inl ⟨Or.inr (Or.inl (by omega)), ?_⟩
    simp only [assert_neg hlarge, error_bind]

/-- A packet is copied, and its descriptor is no longer done. -/
theorem irqCopy_sound (heap : Grants) (h : RxSound s waiting) (hpc : s.pc = .copy i) :
    ∃ data rest, waiting = data :: rest ∧
      (Refused heap data ∧ irqStatement heap s = .error .assertion ∨
        ¬ Refused heap data ∧ ∃ s', irqStatement heap s = .ok s' ∧ RxSound s' rest ∧ s'.accepted = s.accepted ∧
          s'.status = s.status ∧ s'.junk = s.junk ∧ s'.pc = .advance i) := by
  obtain ⟨d, hd, hpacket⟩ := h.look
  obtain ⟨hsize, htail, hslots, hhead, hroom, hplace, hpackets⟩ := h
  have htaken : s.taken = 0 := by rw [RxRing.taken, hpc]
  rw [RxRing.AtTail, hpc] at hplace
  rw [RxRing.first, hpc] at hslots hhead hd
  rw [htaken] at hroom
  obtain ⟨hi, hne⟩ := hplace
  obtain ⟨data, rest, rfl⟩ := List.exists_cons_of_ne_nil hne
  have hdata : d.data = data := by
    rw [RxDescr.packet] at hpacket
    split at hpacket
    · exact Option.some.inj hpacket
    · cases hpacket
  subst hdata
  refine ⟨d.data, rest, rfl, ?_⟩
  have hd' : s.rx[i]? = some d := by
    rw [hi]
    exact hd
  rcases irqCopy_eq heap hpc hd' with hstop | ⟨htaken', hrun⟩
  · exact Or.inl hstop
  · refine Or.inr ⟨htaken', _, hrun, ?_, rfl, rfl, rfl, rfl⟩
    have hlen : (s.rx.map RxDescr.packet).length = e1000NumRxDesc := by rw [List.length_map, hsize]
    have hpop := hslots.pop
    rw [hlen, ← hi] at hpop
    refine ⟨by rw [List.length_set]; exact hsize, htail, ?_, ?_, hroom, hi, ?_⟩
    · rw [List.map_set]
      exact hpop
    · rw [hhead, ← hi, List.length_cons]
      change (i + (rest.length + 1)) % e1000NumRxDesc = ((i + 1) % e1000NumRxDesc + rest.length) % e1000NumRxDesc
      rw [Nat.mod_add_mod, Nat.add_assoc, Nat.add_comm 1]
    · rw [← hpackets]
      change s.queue ++ [d.data] ++ rest = s.queue ++ d.data :: rest
      rw [List.append_assoc]
      rfl

/-- The card is told that a descriptor is free. -/
theorem irqAdvance_sound (heap : Grants) (h : RxSound s waiting) (hpc : s.pc = .advance i) :
    irqStatement heap s = .ok { s with tail := i, pc := .top } ∧ RxSound { s with tail := i, pc := .top } waiting := by
  obtain ⟨hsize, htail, hslots, hhead, hroom, hplace, hpackets⟩ := h
  rw [RxRing.AtTail, hpc] at hplace
  rw [RxRing.first, hpc] at hslots hhead
  unfold irqStatement
  rw [hpc]
  refine ⟨rfl, hsize, ?_, hslots, hhead, ?_, trivial, hpackets⟩
  · rw [hplace]
    exact Nat.mod_lt _ (by decide)
  · change waiting.length + 0 < e1000NumRxDesc
    omega

/-- A place of the handler outside the loop. -/
theorem RxSound.atRest (h : RxSound s waiting) {pc : IrqPc} (hpc : s.pc = .idle ∨ s.pc = .finish)
    (hpc' : pc = .idle ∨ pc = .top ∨ pc = .finish) (status : Word) (junk : Bool) :
    RxSound { s with pc := pc, status := status, junk := junk } waiting := by
  obtain ⟨hsize, htail, hslots, hhead, hroom, -, hpackets⟩ := h
  have hfirst : s.first = (s.tail + 1) % e1000NumRxDesc := by
    rcases hpc with hpc | hpc <;> rw [RxRing.first, hpc]
  have htaken : s.taken = 0 := by
    rcases hpc with hpc | hpc <;> rw [RxRing.taken, hpc]
  rw [hfirst] at hslots hhead
  rw [htaken] at hroom
  rcases hpc' with rfl | rfl | rfl <;> exact ⟨hsize, htail, hslots, hhead, hroom, trivial, hpackets⟩

/-- Behind the loop the handler asserts that it knows what the card wants, and that there was no overrun. -/
theorem irqFinish_sound (heap : Grants) (h : RxSound s waiting) (hpc : s.pc = .finish) :
    (shouldReturn s.status s.junk = false ∧ irqStatement heap s = .error .assertion) ∨
    (shouldReturn s.status s.junk = true ∧ irqStatement heap s = .ok { s with pc := .idle } ∧
      RxSound { s with pc := .idle } waiting) := by
  unfold irqStatement
  rw [hpc]
  cases hreturn : shouldReturn s.status s.junk with
  | false => exact Or.inl ⟨rfl, by simp only [assert_neg (Bool.false_ne_true), error_bind]⟩
  | true => exact Or.inr ⟨rfl, rfl, h.atRest (Or.inr hpc) (Or.inl rfl) s.status s.junk⟩

/-- **A statement of the handler** stops where it is overwhelmed; otherwise it keeps the packets in their order. -/
theorem irqStatement_sound (heap : Grants) (h : RxSound s waiting) :
    (Overwhelmed heap s waiting ∧ irqStatement heap s = .error .assertion) ∨
    (¬ Overwhelmed heap s waiting ∧ ∃ s' waiting', irqStatement heap s = .ok s' ∧ RxSound s' waiting') := by
  unfold Overwhelmed
  cases hpc : s.pc with
  | idle => exact Or.inr ⟨by simp, s, waiting, by rw [irqStatement, hpc], h⟩
  | top =>
    rcases irqTop_sound heap h hpc with ⟨hlen, hrun⟩ | ⟨hlen, i, hrun, hs'⟩
    · exact Or.inl ⟨Or.inl ⟨rfl, hlen⟩, hrun⟩
    · exact Or.inr ⟨by simp [hlen], _, waiting, hrun, hs'⟩
  | look i => exact Or.inr ⟨by simp, _, waiting, irqLook_sound heap h hpc⟩
  | copy i =>
    obtain ⟨data, rest, rfl, ⟨hbad, hrun⟩ | ⟨hgood, s', hrun, hs', -⟩⟩ := irqCopy_sound heap h hpc
    · exact Or.inl ⟨Or.inr (Or.inl ⟨i, data, rest, rfl, rfl, hbad⟩), hrun⟩
    · refine Or.inr ⟨?_, s', rest, hrun, hs'⟩
      rintro (⟨hne, -⟩ | ⟨j, x, xs, -, heq, hbad⟩ | ⟨hne, -⟩)
      · cases hne
      · obtain ⟨rfl, -⟩ := List.cons.inj heq
        exact hgood hbad
      · cases hne
  | advance i => exact Or.inr ⟨by simp, _, waiting, irqAdvance_sound heap h hpc⟩
  | finish =>
    rcases irqFinish_sound heap h hpc with ⟨hreturn, hrun⟩ | ⟨hreturn, hrun, hs'⟩
    · exact Or.inl ⟨Or.inr (Or.inr ⟨rfl, hreturn⟩), hrun⟩
    · exact Or.inr ⟨by simp [hreturn], _, waiting, hrun, hs'⟩

/-- The interrupt starts the handler, if the card reports a cause. -/
theorem irqEnter_sound (h : RxSound s waiting) (hpc : s.pc = .idle) (status : Word) (junk : Bool) :
    RxSound (irqEnter status junk s) waiting := by
  unfold irqEnter
  by_cases hzero : status = 0#32
  · rw [if_pos hzero]
    exact h
  · rw [if_neg hzero]
    refine h.atRest (Or.inl hpc) ?_ status junk
    split
    · exact Or.inr (Or.inl rfl)
    · exact Or.inr (Or.inr rfl)

/-- The next step is a statement of the handler that stops the kernel. -/
def Stops (s : RxRing) (waiting : List (List Byte)) (e : RxEvent) : Prop :=
  ∃ heap, e = .driver heap ∧ Overwhelmed heap s waiting

/-- **A step of either party** stops where the handler is overwhelmed, and else keeps the packets in their order. -/
theorem rx_step (h : RxSound s waiting) (e : RxEvent) :
    (Stops s waiting e ∧ rxStep s e = .error .assertion) ∨
    (¬ Stops s waiting e ∧ ∃ s' waiting', rxStep s e = .ok s' ∧ RxSound s' waiting') := by
  cases e with
  | packet data => exact Or.inr ⟨by simp [Stops], _, _, rfl, cardReceive_sound h data⟩
  | irq status junk =>
    refine Or.inr ⟨by simp [Stops], _, waiting, rfl, ?_⟩
    split
    · exact irqEnter_sound h ‹_› status junk
    · exact h
  | driver heap =>
    rcases irqStatement_sound heap h with ⟨hover, hrun⟩ | ⟨hover, s', waiting', hrun, hs'⟩
    · exact Or.inl ⟨⟨heap, rfl, hover⟩, hrun⟩
    · refine Or.inr ⟨?_, s', waiting', hrun, hs'⟩
      rintro ⟨heap', heq, hover'⟩
      rw [RxEvent.driver.injEq] at heq
      exact hover (heq ▸ hover')

theorem rxRun_sound (es : List RxEvent) (h : RxSound s waiting) (hrun : runSteps rxStep s es = .ok s') :
    ∃ waiting', RxSound s' waiting' := by
  refine runSteps_holds (I := fun _ s => ∃ waiting, RxSound s waiting) (fun _ s e s' hs hstep => ?_) es [] ⟨waiting, h⟩
    hrun
  obtain ⟨waiting, h⟩ := hs
  rcases rx_step h e with ⟨-, herr⟩ | ⟨-, s₂, waiting₂, hok, h₂⟩
  · rw [herr] at hstep
    cases hstep
  · rw [hok, Except.ok.injEq] at hstep
    exact ⟨waiting₂, hstep ▸ h₂⟩

/-- The handler from the top of its loop on, when no packet comes in between and the heap has memory. -/
theorem irq_drains (h : RxSound s waiting) (hpc : s.pc = .top) (hroom : waiting.length ≠ e1000NumRxDesc - 1)
    (hgood : ∀ data ∈ waiting, ¬ Refused .all data) (hreturn : shouldReturn s.status s.junk = true) :
    ∃ s', runSteps rxStep s (List.replicate (4 * waiting.length + 3) (.driver .all)) = .ok s' ∧ s'.pc = .idle ∧
      s'.queue = s.accepted := by
  induction waiting generalizing s with
  | nil =>
    obtain ⟨i, hrun₁, h₁⟩ := ((irqTop_sound .all h hpc).resolve_left fun hlen => hroom hlen.1).2
    obtain ⟨hrun₂, h₂⟩ := irqLook_sound .all h₁ rfl
    obtain ⟨-, hrun₃, h₃⟩ := (irqFinish_sound .all h₂ rfl).resolve_left fun hover => by
      have hover' := hover.1
      simp [hreturn] at hover'
    have hqueue := h₃.packets
    rw [List.append_nil] at hqueue
    refine ⟨_, ?_, rfl, hqueue⟩
    exact (runSteps_cons hrun₁).trans ((runSteps_cons hrun₂).trans ((runSteps_cons hrun₃).trans rfl))
  | cons data rest ih =>
    obtain ⟨i, hrun₁, h₁⟩ := ((irqTop_sound .all h hpc).resolve_left fun hlen => hroom hlen.1).2
    obtain ⟨hrun₂, h₂⟩ := irqLook_sound .all h₁ rfl
    obtain ⟨x, xs, heq, hcopy⟩ := irqCopy_sound .all h₂ rfl
    obtain ⟨rfl, rfl⟩ := List.cons.inj heq
    obtain ⟨-, s₃, hrun₃, h₃, hacc₃, hstatus₃, hjunk₃, hpc₃⟩ := hcopy.resolve_left fun hbad =>
      hgood data List.mem_cons_self hbad.1
    obtain ⟨hrun₄, h₄⟩ := irqAdvance_sound .all h₃ hpc₃
    have hlen := h.room
    rw [List.length_cons] at hlen
    obtain ⟨s', hrun, hidle, hqueue⟩ := ih h₄ rfl (by omega) (fun y hy => hgood y (List.mem_cons_of_mem _ hy))
      (by rw [hstatus₃, hjunk₃]; exact hreturn)
    refine ⟨s', ?_, hidle, hqueue.trans hacc₃⟩
    rw [List.length_cons, show 4 * (rest.length + 1) + 3 = 4 * rest.length + 3 + 1 + 1 + 1 + 1 by omega,
      List.replicate_succ, List.replicate_succ, List.replicate_succ, List.replicate_succ]
    exact (runSteps_cons hrun₁).trans ((runSteps_cons hrun₂).trans ((runSteps_cons hrun₃).trans
      ((runSteps_cons hrun₄).trans hrun)))

/-- **The receive ring**, in every interleaving of the card with the interrupt handler: the packets in the queue and
those that wait in the ring are what the card has accepted, in order. The card drops a packet exactly when the ring is
full. The handler stops the kernel exactly when 31 packets wait as it looks, when a packet has a wrong length or the
heap no memory for it, and at its end when the card reports an overrun or nothing that the handler knows. An interrupt
for received packets without an overrun that finds fewer packets of proper lengths, and memory, takes them all. -/
theorem rx_runs (es : List RxEvent) (hrun : runSteps rxStep e1000InitRx es = .ok s) :
    ∃ waiting, s.queue ++ waiting = s.accepted ∧
      (∀ data, (cardReceive data s).accepted =
        if waiting.length + s.taken = 31 then s.accepted else s.accepted ++ [data]) ∧
      (∀ e, (∃ s', rxStep s e = .ok s') ↔ ¬ Stops s waiting e) ∧
      (s.pc = .idle → waiting.length ≠ 31 → (∀ data ∈ waiting, data ≠ [] ∧ data.length ≤ 4096) →
        ∀ status junk, status &&& 0x80#32 ≠ 0#32 → status &&& 0x40#32 = 0#32 →
          ∃ s', runSteps rxStep s (.irq status junk :: List.replicate (4 * waiting.length + 3) (.driver .all)) =
            .ok s' ∧ s'.pc = .idle ∧ s'.queue = s.accepted) := by
  obtain ⟨waiting, h⟩ := rxRun_sound es e1000InitRx_sound hrun
  refine ⟨waiting, h.packets, fun data => ?_, fun e => ?_, fun hidle hroom hgood status junk hcause hoverrun => ?_⟩
  · have hfull : s.head = s.tail ↔ waiting.length + s.taken = 31 := h.full_iff
    unfold cardReceive
    by_cases heq : s.head = s.tail
    · rw [if_neg (not_not.2 heq), if_pos (hfull.1 heq)]
    · rw [if_pos heq, if_neg fun hlen => heq (hfull.2 hlen)]
  · constructor
    · rintro ⟨s', hok⟩ hstops
      rcases rx_step h e with ⟨-, herr⟩ | ⟨hnot, -⟩
      · rw [herr] at hok
        cases hok
      · exact hnot hstops
    · intro hnot
      obtain ⟨s', -, hok, -⟩ := ((rx_step h e).resolve_left fun hstop => hnot hstop.1).2
      exact ⟨s', hok⟩
  · have hzero : status ≠ 0#32 := fun hzero => hcause (by rw [hzero]; rfl)
    have henter : irqEnter status junk s = { s with pc := .top, status := status, junk := junk } := by
      rw [irqEnter, if_neg hzero, if_pos hcause]
    have hsound := irqEnter_sound h hidle status junk
    have hreturn : shouldReturn status junk = true := by
      have hknown : status &&& 0x97#32 ≠ 0#32 := fun hnone => hcause (by
        rw [show (0x80#32 : Word) = 0x97#32 &&& 0x80#32 by decide, ← BitVec.and_assoc, hnone, BitVec.zero_and])
      rw [shouldReturn, if_neg (not_not.2 hoverrun), if_pos hknown]
    rw [henter] at hsound
    have hirq : rxStep s (.irq status junk) = .ok { s with pc := .top, status := status, junk := junk } :=
      congrArg Except.ok ((if_pos hidle).trans henter)
    obtain ⟨s', hdrain, hend⟩ := irq_drains hsound rfl hroom (fun data hdata hbad => by
      obtain ⟨hne, hle⟩ := hgood data hdata
      rcases hbad with hnil | hlong | hheap
      · exact hne hnil
      · omega
      · exact hheap rfl) hreturn
    exact ⟨s', (runSteps_cons hirq).trans hdrain, hend⟩

end Receive

/-- A packet comes in and is taken, and a second one comes in meanwhile. -/
theorem rx_runs_packet : ∃ s waiting,
    runSteps rxStep e1000InitRx [.packet [1#8], .irq 0x80#32 false, .driver .all, .driver .all, .packet [2#8],
      .driver .all, .driver .all] = .ok s ∧ s.queue = [[1#8]] ∧ s.queue ++ waiting = [[1#8], [2#8]] := by
  have hrun : runSteps rxStep e1000InitRx [.packet [1#8], .irq 0x80#32 false, .driver .all, .driver .all,
      .packet [2#8], .driver .all, .driver .all] =
      .ok ⟨2, 0, [⟨false, [1#8]⟩, ⟨true, [2#8]⟩] ++ List.replicate 30 ⟨false, []⟩, .top, 0x80#32, false, [[1#8]],
        [[1#8], [2#8]]⟩ := by
    decide
  obtain ⟨waiting, hpackets, -⟩ := rx_runs _ hrun
  exact ⟨_, waiting, hrun, rfl, hpackets⟩

/-! ## Sending -/

/-- `E1000_NUM_TX_DESC`. -/
def e1000NumTxDesc : Nat := 8

/-- The registers `E1000_REG_TX_DESC_HEAD` and `E1000_REG_TX_DESC_TAIL`, the buffers of the descriptors with their
lengths, the packets that were handed to the driver, and those that the card has sent. -/
structure TxRing where
  head : Nat
  tail : Nat
  tx : List (List Byte)
  sent : List (List Byte)
  transmitted : List (List Byte)
deriving DecidableEq, Repr

/-- What happens next. -/
inductive TxEvent
  /-- `e1000_send_packet`. -/
  | send (data : List Byte)
  /-- The card sends a packet. -/
  | card
deriving DecidableEq, Repr

/-- `e1000_send_packet`; nobody looks at the head. -/
def e1000SendPacket (data : List Byte) (s : TxRing) : Kernel TxRing := do
  kassert (data.length ≠ 0)
  kassert (data.length ≤ 4096)
  if s.tail < s.tx.length then
    return { s with
      tx := s.tx.set s.tail data
      tail := (s.tail + 1) % e1000NumTxDesc
      sent := s.sent ++ [data] }
  else throw .bounds

/-- The card sends the packet at the head, if there is one. -/
def cardTransmit (s : TxRing) : TxRing :=
  if s.head ≠ s.tail then { s with
    head := (s.head + 1) % e1000NumTxDesc
    transmitted := s.transmitted ++ (s.tx[s.head]?).toList }
  else s

/-- A step. -/
def txStep (s : TxRing) : TxEvent → Kernel TxRing
  | .send data => e1000SendPacket data s
  | .card => .ok (cardTransmit s)

/-- The ring as `e1000_init_tx` makes it. -/
def e1000InitTx : TxRing := ⟨0, 0, List.replicate e1000NumTxDesc [], [], []⟩

/-- A sender that may hold seven packets: those that wait, those that went out, and those that were lost. -/
structure Sender where
  waiting : List (List Byte)
  out : List (List Byte)
  lost : List (List Byte)

/-- The packet that finds seven others waiting is lost, and they are with it. -/
def Sender.step (t : Sender) : TxEvent → Sender
  | .send data =>
    if t.waiting.length = 7 then { t with waiting := [], lost := t.lost ++ (t.waiting ++ [data]) }
    else { t with waiting := t.waiting ++ [data] }
  | .card =>
    match t.waiting with
    | [] => t
    | data :: rest => { t with waiting := rest, out := t.out ++ [data] }

/-- A run of the sender. -/
def Sender.run (t : Sender) (es : List TxEvent) : Sender := es.foldl Sender.step t

/-- Some packet of the run finds seven others waiting. -/
def Crowded : Sender → List TxEvent → Prop
  | _, [] => False
  | t, e :: es => ((∃ data, e = .send data) ∧ t.waiting.length = 7) ∨ Crowded (t.step e) es

/-- **The ring is the sender.** -/
structure TxSound (s : TxRing) (t : Sender) : Prop where
  size : s.tx.length = e1000NumTxDesc
  ring : Holds s.tx s.head t.waiting
  room : t.waiting.length < e1000NumTxDesc
  tail : s.tail = (s.head + t.waiting.length) % e1000NumTxDesc
  out : s.transmitted = t.out

section Send

variable {s s' : TxRing} {t : Sender} {data : List Byte} {es : List TxEvent}

theorem e1000InitTx_sound : TxSound e1000InitTx ⟨[], [], []⟩ :=
  ⟨rfl, holds_nil (show 0 < 8 by decide), by decide, rfl, rfl⟩

/-- A packet is written behind the others; with eight of them the ring looks empty. -/
theorem e1000SendPacket_sound (h : TxSound s t) (hrun : e1000SendPacket data s = .ok s') :
    TxSound s' (t.step (.send data)) ∧ s'.sent = s.sent ++ [data] := by
  obtain ⟨hsize, hring, hroom, htail, hout⟩ := h
  have hhead := hring.head_lt
  rw [hsize] at hhead
  have hlt : s.tail < s.tx.length := by
    rw [hsize, htail]
    exact Nat.mod_lt _ (by decide)
  have hpush := hring.push (by omega) data
  rw [hsize, ← htail] at hpush
  simp only [e1000SendPacket, bind_eq_ok, if_pos hlt] at hrun
  obtain ⟨-, -, -, -, hrun⟩ := hrun
  rw [pure_eq_ok] at hrun
  subst hrun
  refine ⟨?_, rfl⟩
  rw [Sender.step]
  by_cases hfull : t.waiting.length = 7
  · rw [if_pos hfull]
    have hpos : s.head < (s.tx.set s.tail data).length := by rw [List.length_set]; omega
    refine ⟨by rw [List.length_set]; exact hsize, holds_nil hpos, Nat.succ_pos 7, ?_, hout⟩
    change (s.tail + 1) % e1000NumTxDesc = (s.head + 0) % e1000NumTxDesc
    rw [htail, hfull]
    unfold e1000NumTxDesc at *
    omega
  · rw [if_neg hfull]
    refine ⟨by rw [List.length_set]; exact hsize, hpush, ?_, ?_, hout⟩
    · rw [List.length_append, List.length_singleton]
      unfold e1000NumTxDesc at *
      omega
    · change (s.tail + 1) % e1000NumTxDesc = (s.head + (t.waiting ++ [data]).length) % e1000NumTxDesc
      rw [htail, List.length_append, List.length_singleton, Nat.mod_add_mod, Nat.add_assoc]

/-- The card sees a packet where one waits. -/
theorem cardTransmit_sound (h : TxSound s t) : TxSound (cardTransmit s) (t.step .card) := by
  obtain ⟨hsize, hring, hroom, htail, hout⟩ := h
  have hhead := hring.head_lt
  rw [hsize] at hhead
  unfold cardTransmit Sender.step
  cases hwait : t.waiting with
  | nil =>
    rw [hwait] at hring htail hroom
    have hempty : s.head = s.tail := by
      rw [htail, List.length_nil, Nat.add_zero, Nat.mod_eq_of_lt hhead]
    rw [if_neg (not_not.2 hempty)]
    exact ⟨hsize, by rw [hwait]; exact hring, by rw [hwait]; exact hroom, by rw [hwait]; exact htail, hout⟩
  | cons data rest =>
    rw [hwait] at hring htail hroom
    have hne : s.head ≠ s.tail := by
      rw [htail, List.length_cons]
      rw [List.length_cons] at hroom
      unfold e1000NumTxDesc at *
      omega
    obtain ⟨hfirst, hrest⟩ := hring.pop
    rw [if_pos hne, hfirst]
    rw [hsize] at hrest
    refine ⟨hsize, hrest, ?_, ?_, ?_⟩
    · rw [List.length_cons] at hroom
      change rest.length < e1000NumTxDesc
      omega
    · change s.tail = ((s.head + 1) % e1000NumTxDesc + rest.length) % e1000NumTxDesc
      rw [htail, List.length_cons, Nat.mod_add_mod, Nat.add_assoc, Nat.add_comm 1]
    · change s.transmitted ++ [data] = t.out ++ [data]
      rw [hout]

/-- What is lost stays lost. -/
theorem Sender.lost_step (e : TxEvent) : (t.step e).lost = [] ↔
    t.lost = [] ∧ ¬ ((∃ data, e = .send data) ∧ t.waiting.length = 7) := by
  cases e with
  | send data =>
    rw [Sender.step]
    by_cases hfull : t.waiting.length = 7
    · simp [hfull]
    · simp [hfull]
  | card =>
    rw [Sender.step]
    cases t.waiting with
    | nil => simp
    | cons data rest => simp

theorem Sender.lost_run (t : Sender) (es : List TxEvent) : (t.run es).lost = [] ↔ t.lost = [] ∧ ¬ Crowded t es := by
  induction es generalizing t with
  | nil => exact ⟨fun h => ⟨h, not_false⟩, And.left⟩
  | cons e es ih =>
    have hrest := ih (t.step e)
    rw [Sender.lost_step] at hrest
    rw [Crowded, not_or, ← and_assoc]
    exact hrest

/-- Packets that are not lost go out in order. -/
theorem txStep_sound (h : TxSound s t) (hsent : t.lost = [] → s.transmitted ++ t.waiting = s.sent) {e : TxEvent}
    (hrun : txStep s e = .ok s') :
    TxSound s' (t.step e) ∧ ((t.step e).lost = [] → s'.transmitted ++ (t.step e).waiting = s'.sent) := by
  cases e with
  | send data =>
    obtain ⟨h', hsent'⟩ := e1000SendPacket_sound h hrun
    refine ⟨h', fun hlost => ?_⟩
    obtain ⟨hnone, hroom⟩ := (Sender.lost_step _).1 hlost
    have hroom' : t.waiting.length ≠ 7 := fun hlen => hroom ⟨⟨data, rfl⟩, hlen⟩
    rw [h'.out, hsent', ← hsent hnone, h.out, Sender.step, if_neg hroom', List.append_assoc]
  | card =>
    rw [txStep, Except.ok.injEq] at hrun
    subst hrun
    have h' := cardTransmit_sound h
    refine ⟨h', fun hlost => ?_⟩
    have hold := hsent ((Sender.lost_step _).1 hlost).1
    have hkeeps : (cardTransmit s).sent = s.sent := by
      unfold cardTransmit
      split <;> rfl
    rw [h'.out, hkeeps, ← hold, h.out, Sender.step]
    cases hwait : t.waiting with
    | nil => exact congrArg (t.out ++ ·) hwait
    | cons data rest => exact List.append_assoc _ _ _

theorem txRun_sound (es : List TxEvent) (h : TxSound s t)
    (hsent : t.lost = [] → s.transmitted ++ t.waiting = s.sent) (hrun : runSteps txStep s es = .ok s') :
    TxSound s' (t.run es) ∧ ((t.run es).lost = [] → s'.transmitted ++ (t.run es).waiting = s'.sent) := by
  refine runSteps_holds (I := fun done s => TxSound s (t.run done) ∧
    ((t.run done).lost = [] → s.transmitted ++ (t.run done).waiting = s.sent)) (fun done s e s' hs hstep => ?_) es []
    ⟨h, hsent⟩ hrun
  rw [Sender.run, List.foldl_append]
  exact txStep_sound hs.1 hs.2 hstep

/-- **The transmit ring**, in every interleaving of the card with `e1000_send_packet`: the card sends what a sender
sends that holds seven packets and loses eight of them when another one comes. Nothing is lost exactly when no packet
finds seven others waiting; then the packets go out in the order in which they were handed over, none of them twice. -/
theorem tx_runs (es : List TxEvent) (hrun : runSteps txStep e1000InitTx es = .ok s) :
    s.transmitted = (Sender.run ⟨[], [], []⟩ es).out ∧
    ((Sender.run ⟨[], [], []⟩ es).lost = [] ↔ ¬ Crowded ⟨[], [], []⟩ es) ∧
    (¬ Crowded ⟨[], [], []⟩ es → s.transmitted ++ (Sender.run ⟨[], [], []⟩ es).waiting = s.sent) := by
  obtain ⟨hsound, hsent⟩ := txRun_sound es e1000InitTx_sound (fun _ => rfl) hrun
  have hlost := Sender.lost_run ⟨[], [], []⟩ es
  refine ⟨hsound.out, hlost.trans (and_iff_right rfl), fun hroom => hsent (hlost.2 ⟨rfl, hroom⟩)⟩

/-- Two packets, of which the card has sent the first. -/
theorem tx_runs_two : ∃ s, runSteps txStep e1000InitTx [.send [1#8], .send [2#8], .card] = .ok s ∧
    s.transmitted ++ [[2#8]] = s.sent := by
  have hrun : runSteps txStep e1000InitTx [.send [1#8], .send [2#8], .card] =
      .ok ⟨1, 2, [[1#8], [2#8], [], [], [], [], [], []], [[1#8], [2#8]], [[1#8]]⟩ := by
    decide
  refine ⟨_, hrun, (tx_runs _ hrun).2.2 ?_⟩
  simp [Crowded, Sender.step]

end Send

end Myunix.Net
