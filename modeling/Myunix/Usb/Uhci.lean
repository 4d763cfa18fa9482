import Mathlib.Logic.Function.Basic
import Myunix.Usb.Device

/-!
# The UHCI host controller (`usb/uhci.c`)

The controller works through a list of queue heads, and for each of them through a list of transfer descriptors. Both
come from small pools in memory that the controller shares: 16 queue heads, of which the first stays at the head of the
list, and 128 descriptors. Pointers are words with 0 for `NULL`; the links that the controller follows have flags in
their low bits.

`uhci_dev_control` builds the descriptors of one request and waits until `uhci_process_qh` finds that the controller is
done with them. What the controller does in between is a list of `HwStep`s, one for each time the driver looks.
-/

namespace Myunix.Usb

open Lib

/-! ## Memory -/

/-- `uhci_td_t`. -/
structure UhciTd where
  link : Word
  control : Word
  token : Word
  buffer : Word
  active : Byte
  tdNext : Word
deriving DecidableEq, Repr

/-- `uhci_qh_t`. -/
structure UhciQh where
  head : Word
  element : Word
  transfer : Word
  active : Byte
  prev : Word
  next : Word
  tdHead : Word
deriving DecidableEq, Repr

/-- `uhci_controller_t`, with the queue heads, the descriptors and the transfers by their addresses. -/
structure Uhci where
  framelist : Nat → Word
  queueHeads : Word
  transferDescriptors : Word
  asyncQhs : Word
  qh : Word → UhciQh
  td : Word → UhciTd
  transfers : Word → UsbTransfer

/-- `MAX_QH`. -/
def maxQh : Nat := 16

/-- `MAX_TD`. -/
def maxTd : Nat := 128

/-- `TD_PTR_TERMINATE`. -/
def tdPtrTerminate : Word := 0x01#32

/-- `TD_PTR_QH`. -/
def tdPtrQh : Word := 0x02#32

/-- `TD_PTR_DEPTH`. -/
def tdPtrDepth : Word := 0x04#32

/-- `TD_CTRL_STALLED`. -/
def tdCtrlStalled : Word := 0x400000#32

/-- `TD_CTRL_ACTIVE`. -/
def tdCtrlActive : Word := 0x800000#32

/-- `TD_CTRL_LOWSPEED`. -/
def tdCtrlLowspeed : Word := 0x4000000#32

namespace Uhci

/-- `&hc->queue_heads[i]`. -/
def qhAt (hc : Uhci) (i : Nat) : Word := hc.queueHeads + BitVec.ofNat 32 (32 * i)

/-- `&hc->transfer_descriptors[i]`. -/
def tdAt (hc : Uhci) (i : Nat) : Word := hc.transferDescriptors + BitVec.ofNat 32 (32 * i)

/-- Change one queue head. -/
def setQh (hc : Uhci) (p : Word) (f : UhciQh → UhciQh) : Uhci := { hc with qh := Function.update hc.qh p (f (hc.qh p)) }

/-- Change one descriptor. -/
def setTd (hc : Uhci) (p : Word) (f : UhciTd → UhciTd) : Uhci := { hc with td := Function.update hc.td p (f (hc.td p)) }

/-- Change one transfer. -/
def setTransfer (hc : Uhci) (p : Word) (f : UsbTransfer → UsbTransfer) : Uhci :=
  { hc with transfers := Function.update hc.transfers p (f (hc.transfers p)) }

end Uhci

/-! ## The pools -/

/-- `uhci_alloc_td`: `none` for `NULL`. -/
def uhciAllocTd (hc : Uhci) : Option (Word × Uhci) :=
  ((List.range maxTd).find? fun i => (hc.td (hc.tdAt i)).active = 0).map fun i =>
    (hc.tdAt i, hc.setTd (hc.tdAt i) fun td => { td with active := 1 })

/-- `uhci_alloc_qh`. -/
def uhciAllocQh (hc : Uhci) : Option (Word × Uhci) :=
  ((List.range maxQh).find? fun i => (hc.qh (hc.qhAt i)).active = 0).map fun i =>
    (hc.qhAt i, hc.setQh (hc.qhAt i) fun qh => { qh with active := 1 })

/-- `uhci_free_td`. -/
def uhciFreeTd (hc : Uhci) (td : Word) : Uhci := hc.setTd td fun t => { t with active := 0 }

/-- `uhci_free_qh`. -/
def uhciFreeQh (hc : Uhci) (qh : Word) : Uhci := hc.setQh qh fun q => { q with active := 0 }

/-- `uhci_init_td`. -/
def uhciInitTd (hc : Uhci) (td prev : Word) (speed : Word) (addr endpt dataToggle packetType : Byte) (len : BitVec 16)
    (data : Word) : Call Uhci := do
  Lib.assert .assertion (addr &&& ~~~ 0x7F = 0)
  Lib.assert .assertion (endpt &&& ~~~ 0xF = 0)
  Lib.assert .assertion (dataToggle &&& ~~~ 0x1 = 0)
  Lib.assert .assertion (packetType = 0x69 ∨ packetType = 0xE1 ∨ packetType = 0x2D)
  let hc := if prev ≠ 0#32 then hc.setTd prev fun t => { t with link := td ||| tdPtrDepth, tdNext := td } else hc
  let hc := hc.setTd td fun t => { t with link := tdPtrTerminate, tdNext := 0#32 }
  let control := tdCtrlActive ||| 0x10000000#32 ||| 0x8000000#32
  let control := if speed = 1#32 then control ||| tdCtrlLowspeed else control
  let token := (len.setWidth 32 <<< 21 ||| dataToggle.setWidth 32 <<< 19 ||| endpt.setWidth 32 <<< 15 |||
    addr.setWidth 32 <<< 8) ||| packetType.setWidth 32
  return hc.setTd td fun t => { t with control, token, buffer := data }

/-- `uhci_init_qh`. -/
def uhciInitQh (hc : Uhci) (qh transfer td : Word) : Uhci :=
  hc.setQh qh fun q => { q with tdHead := td, element := td, transfer := transfer }

/-! ## The list of queue heads -/

/-- `uhci_insert_qh`. -/
def uhciInsertQh (hc : Uhci) (qh : Word) : Call Uhci := do
  Lib.assert .assertion (hc.asyncQhs ≠ 0#32)
  Lib.assert .assertion ((hc.qh hc.asyncQhs).next = 0#32)
  let hc := hc.setQh qh fun q => { q with head := tdPtrTerminate }
  let last := hc.asyncQhs
  let hc := hc.setQh last fun q => { q with next := qh }
  let hc := hc.setQh qh fun q => { q with prev := last }
  let hc := hc.setQh qh fun q => { q with next := 0#32 }
  let hc := { hc with asyncQhs := qh }
  Lib.assert .assertion (qh &&& 0xF#32 = 0#32)
  return hc.setQh last fun q => { q with head := qh ||| tdPtrQh }

/-- The stores of `uhci_remove_qh` to the neighbours of a queue head. -/
def unlinkQh (hc : Uhci) (qh prev next : Word) : Uhci :=
  let hc := hc.setQh prev fun q => { q with head := (hc.qh qh).head }
  let hc := hc.setQh prev fun q => { q with next := next }
  if next ≠ 0#32 then hc.setQh next fun q => { q with prev := prev } else hc

/-- `uhci_remove_qh`. -/
def uhciRemoveQh (hc : Uhci) (qh : Word) : Call Uhci := do
  Lib.assert .assertion (qh ≠ 0#32)
  let prev := (hc.qh qh).prev
  Lib.assert .assertion (prev ≠ 0#32)
  let next := (hc.qh qh).next
  let hc := unlinkQh hc qh prev next
  if hc.asyncQhs = qh then
    if next ≠ 0#32 then return { hc with asyncQhs := next } else return { hc with asyncQhs := prev }
  else return hc

/-! ## Transfers -/

/-- The loop of `uhci_process_qh` that releases the descriptors from `td` on. There are fewer of them than words. -/
def freeTds : Nat → Uhci → Word → Call Uhci
  | 0, _, _ => throw .rounds
  | fuel + 1, hc, td =>
    if td = 0#32 then return hc
    else
      let next := (hc.td td).tdNext
      freeTds fuel (uhciFreeTd hc td) next

/-- `uhci_process_qh`. -/
def uhciProcessQh (hc : Uhci) (qh : Word) : Call Uhci := do
  let transfer := (hc.qh qh).transfer
  let td := (hc.qh qh).element &&& ~~~ 0xF#32
  let hc :=
    if td = 0#32 then hc.setTransfer transfer fun t => { t with success := true, complete := true }
    else if ~~~ (hc.td td).control &&& tdCtrlActive ≠ 0#32 then
      let hc :=
        if (hc.td td).control &&& tdCtrlStalled ≠ 0#32 then
          hc.setTransfer transfer fun t => { t with success := false, complete := true }
        else hc
      hc.setTransfer transfer fun t => { t with complete := true }
    else hc
  if (hc.transfers transfer).complete then
    let hc := hc.setQh qh fun q => { q with transfer := 0#32 }
    let hc ← uhciRemoveQh hc qh
    let hc ← freeTds 0x100000000 hc (hc.qh qh).tdHead
    return uhciFreeQh hc qh
  else return hc

/-- What the controller has written when the driver looks: the elements that queue heads point to, and the states of
descriptors. -/
structure HwStep where
  element : Word → Word
  control : Word → Word

/-- Memory after a step of the controller. -/
def Uhci.advance (hc : Uhci) (hw : HwStep) : Uhci := { hc with
  qh := fun p => { hc.qh p with element := hw.element p }
  td := fun p => { hc.td p with control := hw.control p } }

/-- The loop of `uhci_wait_for_qh`, with what the controller does before each round. -/
def waitLoop (qh transfer : Word) : List HwStep → Uhci → Call Uhci
  | hws, hc =>
    if (hc.transfers transfer).complete then return hc
    else
      match hws with
      | [] => throw .polling
      | hw :: hws => do
        let hc ← uhciProcessQh (hc.advance hw) qh
        waitLoop qh transfer hws hc

/-- `uhci_wait_for_qh`. -/
def uhciWaitForQh (hc : Uhci) (qh : Word) (hws : List HwStep) : Call Uhci := do
  Lib.assert .assertion (qh ≠ 0#32)
  Lib.assert .assertion ((hc.qh qh).transfer ≠ 0#32)
  waitLoop qh (hc.qh qh).transfer hws hc

/-- `td = uhci_alloc_td(hc); assert(td != NULL)`. -/
def takeTd (hc : Uhci) : Call (Word × Uhci) :=
  match uhciAllocTd hc with
  | none => throw .noTd
  | some r => return r

/-- The variables of the loop of `uhci_dev_control`. -/
structure DataState where
  hc : Uhci
  prev : Word
  progress : Nat

/-- The loop body of `uhci_dev_control`. -/
def dataTd (speed addr : Byte) (packetType : Byte) (maxLen len : Nat) (data : Word) (i : Nat) (x : DataState) :
    Call DataState := do
  let chunk := len - x.progress
  let chunk := if chunk > maxLen then maxLen else chunk
  let (td, hc) ← takeTd x.hc
  let hc ← uhciInitTd hc td x.prev (speed.setWidth 32) addr 0 (if i % 2 ≠ 0 then 1 else 0) packetType
    (BitVec.ofNat 16 (chunk - 1)) (data + BitVec.ofNat 32 x.progress)
  return ⟨hc, td, x.progress + chunk⟩

/-- The first half of `uhci_dev_control`: the descriptors of the request in a queue head that is in the list. -/
def uhciSubmit (hc : Uhci) (dev : UsbDevice) (trans : Word) : Call (Word × Uhci) := do
  let t := hc.transfers trans
  let maxLen := dev.maxPacketSize.toNat
  let len := t.req.length.toNat
  let addr := dev.addr.setWidth 8
  let (head, hc) ← takeTd hc
  let hc ← uhciInitTd hc head 0#32 (dev.speed.setWidth 32) addr 0 0 0x2D 7 t.reqPtr
  let packetType := if t.req.type &&& 0x80 ≠ 0 then 0x69 else 0xE1
  let x ← forRange (dataTd dev.speed addr packetType maxLen len t.data) 0 ((len + maxLen - 1) / maxLen) ⟨hc, head, 0⟩
  let (td, hc) ← takeTd x.hc
  let packetType := if t.req.type &&& 0x80 ≠ 0 then 0xE1 else 0x69
  let hc ← uhciInitTd hc td x.prev (dev.speed.setWidth 32) addr 0 0 packetType 0x7FF 0#32
  match uhciAllocQh hc with
  | none => throw .assertion
  | some (qh, hc) =>
    let hc ← uhciInsertQh (uhciInitQh hc qh trans head) qh
    return (qh, hc)

/-- `uhci_dev_control`. -/
def uhciDevControl (hc : Uhci) (dev : UsbDevice) (trans : Word) (hws : List HwStep) : Call Uhci := do
  let (qh, hc) ← uhciSubmit hc dev trans
  uhciWaitForQh hc qh hws

/-- The memory of `uhci_controller_init`, with the blocks that `dma_malloc` has taken and cleared: the first queue head is
the list. -/
def uhciControllerInit (qhBlock tdBlock : Nat) (transfers : Word → UsbTransfer) : Call Uhci := do
  let hc : Uhci := {
    framelist := fun _ => 0#32
    queueHeads := BitVec.ofNat 32 (qhBlock * 4096)
    transferDescriptors := BitVec.ofNat 32 (tdBlock * 4096)
    asyncQhs := 0#32
    qh := fun _ => ⟨0#32, 0#32, 0#32, 0, 0#32, 0#32, 0#32⟩
    td := fun _ => ⟨0#32, 0#32, 0#32, 0#32, 0, 0#32⟩
    transfers := transfers }
  Lib.assert .assertion (hc.queueHeads ≠ 0#32)
  Lib.assert .assertion (hc.transferDescriptors ≠ 0#32)
  match uhciAllocQh hc with
  | none => throw .assertion
  | some (qh, hc) =>
    let hc := { hc with asyncQhs := qh }
    let hc := hc.setQh hc.asyncQhs fun q => { q with head := tdPtrTerminate, element := tdPtrTerminate }
    return { hc with framelist := fun i => if i < 1024 then tdPtrQh ||| hc.asyncQhs else 0#32 }

end Myunix.Usb
