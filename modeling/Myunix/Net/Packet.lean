import Myunix.CString

/-!
# Frames and the packets the kernel sends (`net/net.c`, `net/udp.c`, `net/checksum.c`)

A received frame is a buffer of exactly the reported number of bytes; a read behind it stops with `Failure.bounds`.
Fields are named by their offset in the frame: the Ethernet header has 14 bytes, an IPv4 header without options 20, so
that the payload of an IPv4 packet starts at 34.

Packets the kernel sends are built in buffers of their own; `sent` logs what `send_packet` is called with.
-/

namespace Myunix.Net

open Lib

/-! ## Frames -/

/-- A received frame; its length is a `size_t`. -/
structure Frame where
  data : List Byte
  fits : data.length < 0x100000000

namespace Frame

/-- The reported length. -/
def length (f : Frame) : Nat := f.data.length

/-- Read the byte at `i`. -/
def u8 (f : Frame) (i : Nat) : Kernel Byte :=
  match f.data[i]? with
  | some b => .ok b
  | none => .error .bounds

/-- Read the `n` bytes from `i` on. -/
def read (f : Frame) : Nat → Nat → Kernel (List Byte)
  | _, 0 => .ok []
  | i, n + 1 => do
    let b ← f.u8 i
    let bs ← f.read (i + 1) n
    return b :: bs

/-- Read the 16-bit field at `i` through `ntohs`. -/
def ntohs (f : Frame) (i : Nat) : Kernel Nat := do
  let hi ← f.u8 i
  let lo ← f.u8 (i + 1)
  return hi.toNat * 256 + lo.toNat

/-- Write two bytes at `i`. -/
def write16 (f : Frame) (i : Nat) (hi lo : Byte) : Kernel Frame :=
  if i + 1 < f.length then
    .ok ⟨(f.data.set i hi).set (i + 1) lo, by rw [List.length_set, List.length_set]; exact f.fits⟩
  else .error .bounds

/-! Reads inside the frame. -/

/-- The byte at `i`. -/
def byte (f : Frame) (i : Nat) : Byte := f.data.getD i 0

/-- The 16-bit number at `i` in network order. -/
def be16 (f : Frame) (i : Nat) : Nat := (f.byte i).toNat * 256 + (f.byte (i + 1)).toNat

/-- The `n` bytes from `i` on. -/
def slice (f : Frame) (i n : Nat) : List Byte := (f.data.drop i).take n

variable {f : Frame} {i n : Nat}

theorem u8_ok (h : i < f.length) : f.u8 i = .ok (f.byte i) := by
  have hi : i < f.data.length := h
  simp [u8, byte, List.getElem?_eq_getElem hi]

theorem u8_error (h : f.length ≤ i) : f.u8 i = .error .bounds := by
  have hi : f.data.length ≤ i := h
  simp [u8, List.getElem?_eq_none hi]

theorem ntohs_ok (h : i + 1 < f.length) : f.ntohs i = .ok (f.be16 i) := by
  rw [ntohs, u8_ok (Nat.lt_of_succ_lt h), ok_bind, u8_ok h]
  rfl

theorem slice_succ (h : i < f.length) : f.slice i (n + 1) = f.byte i :: f.slice (i + 1) n := by
  have hi : i < f.data.length := h
  have hb : f.byte i = f.data[i] := by simp [byte, List.getElem?_eq_getElem hi]
  rw [slice, List.drop_eq_getElem_cons hi, List.take_succ_cons, hb]
  rfl

theorem read_ok (h : i + n ≤ f.length) : f.read i n = .ok (f.slice i n) := by
  induction n generalizing i with
  | zero => simp [read, slice]
  | succ n ih =>
    rw [read, u8_ok (by omega), ok_bind, ih (by omega), ok_bind, slice_succ (by omega)]
    rfl

/-- A read that reaches behind the frame stops. -/
theorem read_error (h : f.length < i + n) (hn : 0 < n) : f.read i n = .error .bounds := by
  induction n generalizing i with
  | zero => omega
  | succ n ih =>
    by_cases hi : i < f.length
    · rw [read, u8_ok hi, ok_bind, ih (by omega) (by omega), error_bind]
    · rw [read, u8_error (by omega), error_bind]

theorem slice_length (h : i + n ≤ f.length) : (f.slice i n).length = n := by
  have hi : i + n ≤ f.data.length := h
  simp only [slice, List.length_take, List.length_drop]
  omega

theorem write16_ok (hi lo : Byte) (h : i + 1 < f.length) : ∃ g, f.write16 i hi lo = .ok g ∧ g.length = f.length ∧
    g.data = (f.data.set i hi).set (i + 1) lo := by
  rw [write16, if_pos h]
  exact ⟨_, rfl, by simp [length], rfl⟩

theorem slice_add (m : Nat) : f.slice i (m + n) = f.slice i m ++ f.slice (i + m) n := by
  rw [slice, slice, slice, List.take_add, List.drop_drop]

/-- A slice that does not meet the two bytes written at `j`. -/
theorem slice_write16 {g : Frame} {j : Nat} {hi lo : Byte} (hg : g.data = (f.data.set j hi).set (j + 1) lo)
    (h : i + n ≤ j ∨ j + 2 ≤ i) : g.slice i n = f.slice i n := by
  rw [slice, slice, hg]
  apply List.ext_getElem?
  intro k
  by_cases hk : k < n
  · rw [List.getElem?_take_of_lt hk, List.getElem?_take_of_lt hk, List.getElem?_drop, List.getElem?_drop,
      List.getElem?_set_ne (by omega), List.getElem?_set_ne (by omega)]
  · rw [List.getElem?_take_eq_none (by omega), List.getElem?_take_eq_none (by omega)]

/-- The two bytes written. -/
theorem slice_written {g : Frame} {j : Nat} {hi lo : Byte} (hg : g.data = (f.data.set j hi).set (j + 1) lo)
    (h : j + 1 < f.length) : g.slice j 2 = [hi, lo] := by
  have hj : j + 1 < f.data.length := h
  have hlen : g.length = f.length := by simp [length, hg]
  have hjj : g.byte j = hi := by simp [byte, hg, show j < f.data.length by omega]
  have hj1 : g.byte (j + 1) = lo := by simp [byte, hg, hj]
  rw [slice_succ (by omega), slice_succ (by omega), hjj, hj1]
  simp [slice]

theorem be16_lt : f.be16 i < 0x10000 := by
  have h₁ := (f.byte i).isLt
  have h₂ := (f.byte (i + 1)).isLt
  unfold be16
  omega

end Frame

/-- The two bytes that a `uint16_t` field holds after `htons(x)` was stored in it. -/
def htons (x : Nat) : List Byte := [BitVec.ofNat 8 (x / 256), BitVec.ofNat 8 x]

/-! ## Checksums -/

/-- The loop of `net_calc_checksum` over 16-bit words in network order; an odd last byte is not looked at. -/
def addWords : List Byte → Nat → Nat
  | hi :: lo :: bytes, v => addWords bytes ((v + (hi.toNat * 256 + lo.toNat)) % 0x100000000)
  | [_], v => v
  | [], v => v

/-- The two folding steps and the final complement. -/
def foldChecksum (v : Nat) : Nat :=
  let v := v / 0x10000 % 0x10000 + v % 0x10000
  let v := v + v / 0x10000 % 0x10000
  0xFFFF - v % 0x10000

/-- `net_calc_checksum`. -/
def netCalcChecksum (bytes : List Byte) : Nat := foldChecksum (addWords bytes 0)

/-- `net_calc_checksum2`. -/
def netCalcChecksum2 (bytes₁ bytes₂ : List Byte) (checksum : Nat) : Kernel Nat := do
  kassert (bytes₁.length % 2 = 0)
  let v := addWords bytes₁ 0
  let v := if v > 0xFFFF then v / 0x10000 + v % 0x10000 else v
  let v := addWords bytes₂ v
  let v := (v + 0x100000000 - checksum) % 0x100000000
  let v :=
    if bytes₂.length % 2 ≠ 0 then
      (v + (bytes₂[bytes₂.length / 2 * 2]?.getD 0).toNat * 256) % 0x100000000
    else v
  return foldChecksum v

/-! ## Sending -/

/-- The part of `netif_t` that the handlers use. -/
structure Netif where
  ip : Vector Byte 4
  mac : Vector Byte 6
  gateway : Vector Byte 4
  gatewayMac : List Byte
  gatewayMacConfigured : Bool

/-- An interface and the frames it was given to send. -/
structure NetState where
  netif : Netif
  sent : List (List Byte)

/-- `net_send_ethernet`, padded to 60 bytes. `memcpy` stops on a length of 0. -/
def netSendEthernet (st : NetState) (srcmac dstmac : List Byte) (type : Nat) (data : List Byte) : Kernel NetState := do
  kassert (data.length ≠ 0)
  let packet := dstmac ++ srcmac ++ htons type ++ data
  return { st with sent := st.sent ++ [packet ++ List.replicate (60 - packet.length) 0] }

/-- `net_send_arp`. -/
def netSendArp (st : NetState) (srcmac dstmac : List Byte) (opcode : Nat) (srchw srcpr dsthw dstpr : List Byte) :
    Kernel NetState :=
  netSendEthernet st srcmac dstmac 0x0806
    (htons 0x01 ++ htons 0x0800 ++ [6, 4] ++ htons opcode ++ srchw ++ srcpr ++ dsthw ++ dstpr)

/-- `net_send_ipv4`; without a `dstmac` the packet goes to the gateway. -/
def netSendIpv4 (st : NetState) (dstmac : Option (List Byte)) (identification protocol : Nat)
    (srcip dstip data : List Byte) : Kernel NetState := do
  let size := 20 + data.length
  kassert (data.length ≠ 0)
  let front := [0x45, 0] ++ htons size ++ htons identification ++ [0, 0] ++ [64, BitVec.ofNat 8 protocol]
  let checksum := netCalcChecksum (front ++ [0, 0] ++ srcip ++ dstip)
  let packet := front ++ htons checksum ++ srcip ++ dstip ++ data
  match dstmac with
  | some dstmac => netSendEthernet st st.netif.mac.toList dstmac 0x0800 packet
  | none =>
    if st.netif.gatewayMacConfigured then
      netSendEthernet st st.netif.mac.toList st.netif.gatewayMac 0x0800 packet
    else return st

/-- `net_send_udp`. -/
def netSendUdp (st : NetState) (dstip : List Byte) (srcport dstport : Nat) (data : List Byte) : Kernel NetState := do
  kassert (data.length ≠ 0)
  let packet := htons srcport ++ htons dstport ++ htons (8 + data.length) ++ [0, 0] ++ data
  netSendIpv4 st none 0 0x11 st.netif.ip.toList dstip packet

end Myunix.Net
