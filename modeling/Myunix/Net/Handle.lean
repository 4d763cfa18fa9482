import Myunix.Net.Packet

/-!
# Receiving frames (`net/net.c`, `net/udp.c`, `net/tcp.c`)

One round of `ktask_net`: the dispatcher looks at the Ethernet type and hands the frame to the ARP or the IPv4 handler,
which hands it on to ICMP, TCP or UDP. A handler reads the frame, also where it only prints what it read (the `debug_`
texts of `net.c` are compiled out, those of `udp.c` and `tcp.c` are not), and may send a reply.
-/

namespace Myunix.Net

open Lib

/-! ## ICMP -/

/-- `net_handle_icmp_echo`. The identification of the request is passed on as it stands in memory. -/
def netHandleIcmpEcho (st : NetState) (f : Frame) (icmpPacketDataSize : Nat) : Kernel NetState := do
  if icmpPacketDataSize < 4 then return st
  else
    let identifier ← f.read 38 2
    let sequence ← f.read 40 2
    let data ← f.read 42 (icmpPacketDataSize - 4)
    let checksum := netCalcChecksum ([0, 0, 0, 0] ++ identifier ++ sequence ++ data)
    let reply := [0, 0] ++ htons checksum ++ identifier ++ sequence ++ data
    let srcmac ← f.read 6 6
    let id₀ ← f.u8 18
    let id₁ ← f.u8 19
    let srcip ← f.read 26 4
    netSendIpv4 st (some srcmac) (id₁.toNat * 256 + id₀.toNat) 0x01 st.netif.ip.toList srcip reply

/-- `net_handle_icmp`: the checksum field is zeroed while the checksum is computed and left so if it is wrong. -/
def netHandleIcmp (st : NetState) (f : Frame) (ipv4DataLength : Nat) : Kernel NetState := do
  if ipv4DataLength < 4 then return st
  else
    let oldChecksum ← f.ntohs 36
    let zeroed ← f.write16 36 0 0
    let words ← zeroed.read 34 (ipv4DataLength / 2 * 2)
    if oldChecksum ≠ netCalcChecksum words then return st
    else
      let type ← f.u8 34
      if type = 8 then netHandleIcmpEcho st f (ipv4DataLength - 4) else return st

/-! ## TCP -/

/-- `tcp_calc_checksum` over the `length` bytes of the segment and its pseudo header. -/
def tcpCalcChecksum (f : Frame) (length : Nat) : Kernel Nat := do
  let srcip ← f.read 26 4
  let dstip ← f.read 30 4
  let checksum ← f.ntohs 50
  let segment ← f.read 34 length
  netCalcChecksum2 (srcip ++ dstip ++ [0, 0x06] ++ htons length) segment checksum

/-- `net_handle_tcp`: nothing is done with a valid segment. -/
def netHandleTcp (st : NetState) (f : Frame) (ipv4DataLength : Nat) : Kernel NetState := do
  if ipv4DataLength < 20 then return st
  else
    -- printed: the ports and both sequence numbers
    let _ ← f.read 34 12
    let flags ← f.ntohs 46
    let dataOffset := flags / 0x1000 % 16 * 4
    let dataLength := (ipv4DataLength + 0x100000000 - dataOffset) % 0x100000000
    if dataOffset < 20 then return st
    else if dataOffset > 60 then return st
    else
      let size := (dataOffset + dataLength) % 0x100000000
      if size > ipv4DataLength then return st
      else if flags / 0x200 % 8 ≠ 0 then return st
      else
        -- printed: the window size
        let _ ← f.ntohs 48
        let checksumReceived ← f.ntohs 50
        let checksumCalculated ← tcpCalcChecksum f size
        if checksumReceived ≠ checksumCalculated then return st
        else
          let _ ← f.ntohs 52
          return st

/-! ## UDP -/

/-- One round of the loop that prints the data. -/
def udpPrintBody (f : Frame) (i : Nat) (_ : PUnit) : Kernel PUnit := do
  let _ ← f.u8 (42 + i)
  return ⟨⟩

/-- `net_handle_udp` sends `length` bytes back through the gateway. -/
def netHandleUdp (st : NetState) (f : Frame) (ipv4DataLength : Nat) : Kernel NetState := do
  if ipv4DataLength < 8 then return st
  else
    let srcport ← f.ntohs 34
    let dstport ← f.ntohs 36
    let length ← f.ntohs 38
    -- printed: the checksum
    let _ ← f.ntohs 40
    forRange (udpPrintBody f) 0 ((length + 0x100000000 - 8) % 0x100000000) ⟨⟩
    let srcip ← f.read 26 4
    let data ← f.read 42 length
    netSendUdp st srcip dstport srcport data

/-! ## IPv4 -/

/-- The handlers `net_handle_ipv4` knows (`enum ipv4_type`). -/
inductive Ipv4Type
  | icmp
  | tcp
  | udp
deriving DecidableEq, Repr

/-- `ipv4_calculate_checksum` of the header in the frame. -/
def ipv4CalculateChecksum (f : Frame) : Kernel Nat := do
  let zeroed ← f.write16 24 0 0
  let header ← zeroed.read 14 20
  return netCalcChecksum header

/-- The checks of `net_handle_ipv4`: the handler it calls and the data length it passes, or nothing if it drops the
frame. -/
def ipv4Accept (netif : Netif) (f : Frame) : Kernel (Option (Ipv4Type × Nat)) := do
  if f.length < 14 + 20 then return none
  else
    let versionIhl ← f.u8 14
    if versionIhl &&& 0x0F ≠ 5 then return none
    else if (versionIhl &&& 0xF0) >>> 4 ≠ 4 then return none
    else
      let ipv4PacketLength ← f.ntohs 16
      if ipv4PacketLength < 20 then return none
      else if f.length < ipv4PacketLength + 14 + 4 then return none
      else
        let flagsFragmentOffset ← f.ntohs 20
        let flags := flagsFragmentOffset / 0x2000
        if flags &&& 0x1 ≠ 0 then return none
        else if flags &&& 0x4 ≠ 0 then return none
        else
          let calcChecksum ← ipv4CalculateChecksum f
          let checksum ← f.ntohs 24
          if calcChecksum ≠ checksum then return none
          else
            let dstip ← f.read 30 4
            if (← memcmp dstip netif.ip.toList 4) = 0 then
              let dataLength := ipv4PacketLength - 20
              let protocol ← f.u8 23
              if protocol = 0x01 then return some (.icmp, dataLength)
              else if protocol = 0x06 then return some (.tcp, dataLength)
              else if protocol = 0x11 then return some (.udp, dataLength)
              else return none
            else return none

/-- `net_handle_ipv4`. -/
def netHandleIpv4 (st : NetState) (f : Frame) : Kernel NetState := do
  match ← ipv4Accept st.netif f with
  | none => return st
  | some (.icmp, dataLength) => netHandleIcmp st f dataLength
  | some (.tcp, dataLength) => netHandleTcp st f dataLength
  | some (.udp, dataLength) => netHandleUdp st f dataLength

/-! ## ARP -/

/-- A text with its NUL. -/
def textBytes (s : String) : List Byte := (s.toList.map fun c => BitVec.ofNat 8 c.toNat) ++ [0]

/-- The message sent when the gateway has answered. -/
def gatewayMessage : List Byte := textBytes "hello from the other side. I must have called a thousand times!\n"

/-- `net_handle_arp`. -/
def netHandleArp (st : NetState) (f : Frame) : Kernel NetState := do
  if f.length < 14 + 20 then return st
  else
    let hwtype ← f.ntohs 14
    if hwtype ≠ 1 then return st
    else
      let ptype ← f.ntohs 16
      if ptype ≠ 0x0800 then return st
      else
        let hlen ← f.u8 18
        if hlen ≠ 6 then return st
        else
          let plen ← f.u8 19
          if plen ≠ 4 then return st
          else
            let opcode ← f.ntohs 20
            if opcode = 1 then
              -- printed: all addresses
              let srchw ← f.read 22 6
              let srcpr ← f.read 28 4
              let _ ← f.read 32 6
              let dstpr ← f.read 38 4
              if (← memcmp st.netif.ip.toList dstpr 4) = 0 then
                let srcmac ← f.read 6 6
                netSendArp st st.netif.mac.toList srcmac 2 st.netif.mac.toList st.netif.ip.toList srchw srcpr
              else return st
            else if opcode = 2 then
              let srchw ← f.read 22 6
              let srcpr ← f.read 28 4
              let _ ← f.read 32 6
              let _ ← f.read 38 4
              if (← memcmp srcpr st.netif.gateway.toList 4) = 0 then
                let st := { st with netif := { st.netif with gatewayMac := srchw, gatewayMacConfigured := true } }
                netSendUdp st st.netif.gateway.toList 1234 4321 gatewayMessage
              else return st
            else return st

/-! ## The dispatcher -/

/-- What `ktask_net` does with one received frame. -/
def ktaskNetBody (st : NetState) (f : Frame) : Kernel NetState := do
  if f.length < 14 then return st
  else
    let type ← f.ntohs 12
    if type = 0x0806 then netHandleArp st f
    else if type = 0x0800 then netHandleIpv4 st f
    -- `net_handle_ipv6` does nothing
    else return st

end Myunix.Net
