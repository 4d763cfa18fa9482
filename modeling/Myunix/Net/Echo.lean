import Myunix.Net.Checksum
import Myunix.Net.Exchange
import Myunix.Net.Reads

/-!
# Echoes

A host that is asked for an echo sends back what it got. `net_handle_udp` passes the length field of the datagram on as
the number of bytes of data, eight too many: the datagram it sends never has the length of the one received
(`net_handle_udp_echo`). `net_handle_icmp` tests the checksum with `net_calc_checksum`, so a request without IPv4 options
is answered, and answered correctly, exactly if its length is even or its last byte zero (`icmp_echo_answered_iff`).
-/

namespace Myunix.Net

open Lib

/-! ## UDP -/

/-- The datagram that should go back: to the sender, with the ports exchanged and the data as received. -/
structure UdpReply (netif : Netif) (f reply : Frame) : Prop where
  type : reply.be16 12 = 0x0800
  protocol : reply.byte 23 = Ipv4Type.udp.code
  source : reply.slice 26 4 = netif.ip.toList
  destination : reply.slice 30 4 = f.slice 26 4
  srcport : reply.be16 34 = f.be16 36
  dstport : reply.be16 36 = f.be16 34
  length : reply.be16 38 = f.be16 38
  payload : reply.slice 42 (f.be16 38 - 8) = f.slice 42 (f.be16 38 - 8)

/-- Exactly one frame is sent, and it is the right one. -/
def UdpEchoed (st : NetState) (f : Frame) (n : Nat) : Prop :=
  ∃ reply : Frame, netHandleUdp st f n = .ok { st with sent := st.sent ++ [reply.data] } ∧ UdpReply st.netif f reply

section Udp

variable {st : NetState} {f : Frame} {n : Nat}

/-- The datagram that `net_send_udp` builds. -/
def udpPacket (srcport dstport : Nat) (data : List Byte) : List Byte :=
  htons srcport ++ htons dstport ++ htons (8 + data.length) ++ [0, 0] ++ data

/-- A datagram that is echoed goes to the gateway with all the bytes that its length field counts. -/
theorem netHandleUdp_sends (hn : 8 ≤ n) (hin : 34 + n ≤ f.length) (hlow : 8 ≤ f.be16 38)
    (hgateway : st.netif.gatewayMacConfigured = true) (hlen : 42 + f.be16 38 ≤ f.length) :
    netHandleUdp st f n = .ok { st with
      sent := st.sent ++ [ethernetFrame st.netif.mac.toList st.netif.gatewayMac 0x0800
        (ipv4Packet 0 0x11 st.netif.ip.toList (f.slice 26 4)
          (udpPacket (f.be16 36) (f.be16 34) (f.slice 42 (f.be16 38))))] } := by
  have hlt : f.be16 38 < 0x10000 := Frame.be16_lt
  have hdata : (f.slice 42 (f.be16 38)).length = f.be16 38 := Frame.slice_length hlen
  have hpacket : (udpPacket (f.be16 36) (f.be16 34) (f.slice 42 (f.be16 38))).length ≠ 0 := by simp [udpPacket, htons]
  have hcount : (f.be16 38 + 0x100000000 - 8) % 0x100000000 = f.be16 38 - 8 := by omega
  rw [netHandleUdp, if_neg (by omega), Frame.ntohs_ok (by omega), ok_bind, Frame.ntohs_ok (by omega), ok_bind,
    Frame.ntohs_ok (by omega), ok_bind, Frame.ntohs_ok (by omega), ok_bind, hcount, udpPrint_ok (by omega), ok_bind,
    Frame.read_ok (by omega), ok_bind, Frame.read_ok hlen, ok_bind, netSendUdp, assert_bind (by omega)]
  exact (netSendIpv4_gateway hgateway hpacket).trans
    (netSendIpv4_frame st.netif.ip.length_toList (Frame.slice_length (by omega)) hpacket)

/-- The length field of the datagram sent is eight more than that of the datagram received. -/
theorem netHandleUdp_length {reply : Frame} (hn : 8 ≤ n) (hin : 34 + n ≤ f.length) (hlow : 8 ≤ f.be16 38)
    (hgateway : st.netif.gatewayMacConfigured = true) (hmac : st.netif.gatewayMac.length = 6)
    (hsent : netHandleUdp st f n = .ok { st with sent := st.sent ++ [reply.data] }) :
    reply.be16 38 = (f.be16 38 + 8) % 0x10000 := by
  have hlen : 42 + f.be16 38 ≤ f.length := by
    rcases netHandleUdp_eq st hin hn with ⟨hinside, -⟩ | ⟨-, herror⟩
    · exact hinside.2
    · rw [hsent] at herror
      cases herror
  rw [netHandleUdp_sends hn hin hlow hgateway hlen, Except.ok.injEq] at hsent
  have hreply := (List.singleton_inj.1 (List.append_cancel_left (NetState.mk.inj hsent).2)).symm
  rw [← List.append_nil (ethernetFrame _ _ _ _)] at hreply
  obtain ⟨hparts, -⟩ := ethernetFrame_parts hreply st.netif.mac.length_toList hmac st.netif.ip.length_toList
    (Frame.slice_length (by omega))
  have hdata : (f.slice 42 (f.be16 38)).length = f.be16 38 := Frame.slice_length hlen
  rw [Frame.be16_of_slice (k := 4) hparts.payload (by simp [udpPacket, htons])]
  simp only [udpPacket, htons, List.cons_append, List.nil_append, List.getD_cons_succ, List.getD_cons_zero, hdata,
    BitVec.toNat_ofNat]
  omega

/-- **UDP.** No datagram is echoed with the length it came with. -/
theorem net_handle_udp_echo (st : NetState) (f : Frame) (hchecked : Ipv4Checked st.netif f)
    (hlow : 8 ≤ f.be16 38) (hhigh : f.be16 38 ≤ f.be16 16 - 20)
    (hgateway : st.netif.gatewayMacConfigured = true) (hmac : st.netif.gatewayMac.length = 6) :
    ¬ UdpEchoed st f (f.be16 16 - 20) := by
  rintro ⟨reply, hsent, hreply⟩
  have hlt : f.be16 38 < 0x10000 := Frame.be16_lt
  have hfits := hchecked.fits
  have hlength := netHandleUdp_length (by omega) (by omega) hlow hgateway hmac hsent
  rw [hreply.length] at hlength
  omega

end Udp

/-- The interface of `net_register_netif` when the gateway has answered. -/
def gatewayNetif : Netif := { defaultNetif with gatewayMac := [2, 0, 0, 0, 0, 2], gatewayMacConfigured := true }

/-- A datagram from 10.0.0.1 with one byte of data, in a frame of 64 bytes. -/
def shortUdp : Frame :=
  ⟨List.replicate 12 0 ++ [0x08, 0x00] ++
    [0x45, 0, 0, 29, 0, 0, 0, 0, 64, 0x11, 0x66, 0xce, 10, 0, 0, 1, 10, 0, 0, 2] ++
    [0x04, 0xd2, 0x10, 0xe1, 0x00, 0x09, 0, 0, 0x61] ++ List.replicate 21 0, by decide⟩

theorem shortUdp_checked : Ipv4Checked gatewayNetif shortUdp :=
  ⟨by decide +kernel, by decide +kernel, by decide +kernel, by decide +kernel, by decide +kernel, by decide +kernel,
    by decide +kernel, by decide +kernel, by decide +kernel, .udp, by decide +kernel⟩

/-- The datagram that goes back says that it has 17 bytes instead of 9. -/
theorem net_handle_udp_short :
    Ipv4Checked gatewayNetif shortUdp ∧ shortUdp.byte 23 = Ipv4Type.udp.code ∧ shortUdp.be16 38 = 9 ∧
      shortUdp.be16 16 - 20 = 9 ∧ ¬ UdpEchoed ⟨gatewayNetif, []⟩ shortUdp 9 := by
  refine ⟨shortUdp_checked, by decide +kernel, by decide +kernel, by decide +kernel, ?_⟩
  rintro ⟨reply, hsent, hreply⟩
  have hlength := netHandleUdp_length (by decide) (by decide +kernel) (by decide +kernel) rfl rfl hsent
  rw [hreply.length] at hlength
  exact absurd hlength (by decide +kernel)

/-- The same datagram. -/
theorem net_handle_udp_echo_short : ¬ UdpEchoed ⟨gatewayNetif, []⟩ shortUdp (shortUdp.be16 16 - 20) :=
  net_handle_udp_echo ⟨gatewayNetif, []⟩ shortUdp shortUdp_checked (by decide +kernel) (by decide +kernel)
    rfl rfl

/-! ## ICMP -/

/-- Where the ICMP message starts in the frame. -/
def icmpStart (f : Frame) : Nat := 14 + (f.byte 14).toNat % 16 * 4

/-- The ICMP message: what the packet has behind its header. -/
def icmpMessage (f : Frame) : List Byte := f.slice (icmpStart f) (f.be16 16 - (f.byte 14).toNat % 16 * 4)

/-- An echo request to the interface, with or without IPv4 options, whose checksums are those of RFC 1071. -/
structure EchoRequest (netif : Netif) (f : Frame) : Prop where
  type : f.be16 12 = 0x0800
  version : (f.byte 14).toNat / 16 = 4
  ihl : 5 ≤ (f.byte 14).toNat % 16
  body : (f.byte 14).toNat % 16 * 4 + 8 ≤ f.be16 16
  fits : f.be16 16 + 18 ≤ f.length
  reserved : f.be16 20 / 0x8000 = 0
  unfragmented : f.be16 20 % 0x4000 = 0
  protocol : f.byte 23 = Ipv4Type.icmp.code
  checksum : f.be16 24 = rfcChecksum (zeroWord (f.slice 14 ((f.byte 14).toNat % 16 * 4)) 10)
  destination : f.slice 30 4 = netif.ip.toList
  request : f.byte (icmpStart f) = 8
  icmpChecksum : f.be16 (icmpStart f + 2) = rfcChecksum (zeroWord (icmpMessage f) 2)

/-- The reply to a request: from the interface to the sender, with the message as received but for its type. -/
structure EchoReply (netif : Netif) (f reply : Frame) : Prop where
  mac : reply.slice 0 6 = f.slice 6 6
  type : reply.be16 12 = 0x0800
  version : reply.byte 14 = 0x45
  total : reply.be16 16 = 20 + (icmpMessage f).length
  fits : reply.be16 16 + 14 ≤ reply.length
  unfragmented : reply.be16 20 = 0
  protocol : reply.byte 23 = Ipv4Type.icmp.code
  checksum : reply.be16 24 = rfcChecksum (zeroWord (reply.slice 14 20) 10)
  source : reply.slice 26 4 = netif.ip.toList
  destination : reply.slice 30 4 = f.slice 26 4
  typeCode : reply.slice 34 2 = [0, 0]
  icmpChecksum : reply.be16 36 = rfcChecksum (zeroWord (icmpMessage reply) 2)
  body : (icmpMessage reply).drop 4 = (icmpMessage f).drop 4

/-- Exactly one frame is sent, and it is the reply. -/
def EchoAnswered (st : NetState) (f : Frame) : Prop :=
  ∃ reply : Frame, ktaskNetBody st f = .ok { st with sent := st.sent ++ [reply.data] } ∧ EchoReply st.netif f reply

section Icmp

variable {st : NetState} {f : Frame} {n : Nat}

/-- Zeroing a word of the frame zeroes it in the bytes around it. -/
theorem slice_zeroed {g : Frame} {i o : Nat} (hg : g.data = (f.data.set (i + o) 0).set (i + o + 1) 0) :
    g.slice i n = zeroWord (f.slice i n) o := by
  have hsub : i + o + 1 - i = o + 1 := by omega
  rw [Frame.slice, hg, List.drop_set, if_neg (by omega), List.drop_set, if_neg (by omega), List.take_set, List.take_set,
    Nat.add_sub_cancel_left, hsub]
  rfl

theorem headerZeroed_eq (h : 34 ≤ f.length) : headerZeroed f = zeroWord (f.slice 14 20) 10 := by
  have hfield : f.slice 24 2 = [f.byte 24, f.byte 25] := by
    rw [Frame.slice_succ (by omega), Frame.slice_succ (by omega)]
    simp [Frame.slice]
  have hfront : (f.slice 14 10).length = 10 := Frame.slice_length (by omega)
  rw [show (20 : Nat) = 10 + (2 + 8) from rfl, Frame.slice_add, Frame.slice_add, hfield, zeroWord,
    List.set_append_right _ _ (by omega), List.set_append_right _ _ (by omega), hfront, headerZeroed, List.append_assoc]
  rfl

theorem headerZeroed_checksum (h : 34 ≤ f.length) :
    internetChecksum (words (headerZeroed f)) = rfcChecksum (zeroWord (f.slice 14 20) 10) := by
  have hlength : (zeroWord (f.slice 14 20) 10).length = 20 := by rw [zeroWord_length, Frame.slice_length (by omega)]
  rw [headerZeroed_eq h, rfcChecksum, paddedWords_even (by omega)]

theorem addWords_take (bytes : List Byte) (v : Nat) :
    addWords (bytes.take (bytes.length / 2 * 2)) v = addWords bytes v := by
  fun_induction addWords bytes v with
  | case1 hi lo bytes v ih =>
    have hlength : (bytes.length + 1 + 1) / 2 * 2 = bytes.length / 2 * 2 + 1 + 1 := by omega
    rw [List.length_cons, List.length_cons, hlength, List.take_succ_cons, List.take_succ_cons, addWords, ih]
  | case2 b v => simp [addWords]
  | case3 v => simp [addWords]

/-- A request is answered if `net_calc_checksum` of the message with its field zeroed is the field. -/
theorem netHandleIcmp_request (hn : 8 ≤ n) (hin : 34 + n ≤ f.length) (htype : f.byte 34 = 8) :
    netHandleIcmp st f n = if f.be16 36 = netCalcChecksum (zeroWord (f.slice 34 n) 2) then
      netHandleIcmpEcho st f (n - 4) else .ok st := by
  obtain ⟨g, hg, hlen, hdata⟩ := Frame.write16_ok (i := 36) 0 0 (show 36 + 1 < f.length by omega)
  have hmessage : (zeroWord (f.slice 34 n) 2).length = n := by rw [zeroWord_length, Frame.slice_length hin]
  have hbytes : g.slice 34 (n / 2 * 2) = (zeroWord (f.slice 34 n) 2).take (n / 2 * 2) := by
    rw [← slice_zeroed hdata, Frame.slice, Frame.slice, List.take_take, Nat.min_eq_left (by omega)]
  have hsum : netCalcChecksum (g.slice 34 (n / 2 * 2)) = netCalcChecksum (zeroWord (f.slice 34 n) 2) := by
    have htake := addWords_take (zeroWord (f.slice 34 n) 2) 0
    rw [hmessage] at htake
    rw [netCalcChecksum, hbytes, htake, netCalcChecksum]
  rw [netHandleIcmp, if_neg (by omega), Frame.ntohs_ok (by omega), ok_bind, hg, ok_bind, Frame.read_ok (by omega), ok_bind,
    hsum]
  by_cases hfield : f.be16 36 = netCalcChecksum (zeroWord (f.slice 34 n) 2)
  · rw [if_neg (not_not.2 hfield), if_pos hfield, Frame.u8_ok (by omega), ok_bind, if_pos htype]
  · rw [if_pos hfield, if_neg hfield]
    rfl

/-- The reply that `net_handle_icmp_echo` builds. -/
def echoReplyPacket (body : List Byte) : List Byte :=
  [0, 0] ++ htons (netCalcChecksum ([0, 0, 0, 0] ++ body)) ++ body

theorem echoReplyPacket_length (body : List Byte) : (echoReplyPacket body).length = 4 + body.length := by
  simp [echoReplyPacket, htons]
  omega

theorem netHandleIcmpEcho_sends (hn : 8 ≤ n) (hin : 34 + n ≤ f.length) :
    netHandleIcmpEcho st f (n - 4) = .ok { st with
      sent := st.sent ++ [ethernetFrame st.netif.mac.toList (f.slice 6 6) 0x0800
        (ipv4Packet ((f.byte 19).toNat * 256 + (f.byte 18).toNat) 0x01 st.netif.ip.toList (f.slice 26 4)
          (echoReplyPacket (f.slice 38 (n - 4))))] } := by
  have hbody : f.slice 38 (n - 4) = f.slice 38 2 ++ f.slice 40 2 ++ f.slice 42 (n - 4 - 4) := by
    rw [show n - 4 = 2 + (2 + (n - 4 - 4)) by omega, Frame.slice_add, Frame.slice_add, List.append_assoc,
      show 2 + (2 + (n - 4 - 4)) - 4 = n - 4 - 4 by omega]
  have hpacket : (echoReplyPacket (f.slice 38 (n - 4))).length ≠ 0 := by simp [echoReplyPacket, htons]
  rw [netHandleIcmpEcho, if_neg (by omega), Frame.read_ok (by omega), ok_bind, Frame.read_ok (by omega), ok_bind,
    Frame.read_ok (by omega), ok_bind]
  dsimp only
  rw [Frame.read_ok (by omega), ok_bind, Frame.u8_ok (by omega), ok_bind, Frame.u8_ok (by omega), ok_bind,
    Frame.read_ok (by omega), ok_bind, ← netSendIpv4_frame st.netif.ip.length_toList (Frame.slice_length (by omega)) hpacket,
    hbody]
  simp only [echoReplyPacket, List.append_assoc]

/-- A request without options passes the checks of `net_handle_ipv4`. -/
theorem EchoRequest.checked {netif : Netif} (h : EchoRequest netif f) (hihl : (f.byte 14).toNat % 16 = 5) :
    Ipv4Checked netif f := by
  have hbody := h.body
  have hfits := h.fits
  have hunfragmented := h.unfragmented
  have hsum := h.checksum
  rw [hihl, ← headerZeroed_checksum (by omega)] at hsum
  exact ⟨by omega, h.version, hihl, by omega, hfits, h.reserved, by omega, hsum, h.destination, .icmp, h.protocol⟩

/-- The dispatcher drops packets with options and hands the others to `net_handle_icmp`. -/
theorem ktaskNetBody_request (h : EchoRequest st.netif f) :
    ktaskNetBody st f = if (f.byte 14).toNat % 16 = 5 then netHandleIcmp st f (f.be16 16 - 20) else .ok st := by
  have hfits := h.fits
  have hbody := h.body
  have hihl := h.ihl
  rw [ktaskNetBody, if_neg (by omega), Frame.ntohs_ok (by omega), ok_bind, h.type, if_neg (by decide), if_pos rfl,
    netHandleIpv4]
  rcases ipv4Accept_cases st.netif f with ⟨hc, t, ht, heq⟩ | ⟨hc, heq⟩
  · have hicmp : t = .icmp := Ipv4Type.code_injective (ht.symm.trans h.protocol)
    rw [heq, ok_bind, if_pos hc.ihl, hicmp]
  · rw [heq, ok_bind, if_neg fun hihl => hc (h.checked hihl)]
    rfl

/-- The request and the reply have the same odd byte, and both checksums are right if it is zero. -/
theorem oddByte_reply (hn : 8 ≤ n) (hin : 34 + n ≤ f.length) :
    oddByte ([0, 0, 0, 0] ++ f.slice 38 (n - 4)) = oddByte (f.slice 34 n) := by
  have hfront : (f.slice 34 4).length = 4 := Frame.slice_length (by omega)
  have hsplit : f.slice 34 n = f.slice 34 4 ++ f.slice 38 (n - 4) := by
    rw [← Frame.slice_add (i := 34) 4, Nat.add_sub_cancel' (by omega)]
  rw [hsplit, oddByte_append rfl, oddByte_append (by omega)]

/-- The bytes that `net_handle_icmp_echo` sends are a frame. -/
theorem echoReply_frame (st : NetState) (hle : n ≤ 65515) (hin : 34 + n ≤ f.length) :
    ∃ reply : Frame, reply.data = ethernetFrame st.netif.mac.toList (f.slice 6 6) 0x0800
      (ipv4Packet ((f.byte 19).toNat * 256 + (f.byte 18).toNat) 0x01 st.netif.ip.toList (f.slice 26 4)
        (echoReplyPacket (f.slice 38 (n - 4)))) := by
  refine ⟨⟨ethernetFrame _ _ _ _, ?_⟩, rfl⟩
  rw [ethernetFrame_length st.netif.mac.length_toList (Frame.slice_length (by omega)),
    ipv4Packet_length _ _ _ st.netif.ip.length_toList (Frame.slice_length (by omega)), echoReplyPacket_length]
  have hbody : (f.slice 38 (n - 4)).length ≤ n - 4 := List.length_take_le _ _
  omega

/-- The frame that `net_handle_icmp_echo` sends is the reply. -/
theorem echoReply_of_sent {reply : Frame} (hn : 8 ≤ n) (hle : n ≤ 65515) (hin : 34 + n ≤ f.length)
    (hmessage : icmpMessage f = f.slice 34 n) (hodd : oddByte (f.slice 34 n) = 0)
    (hreply : reply.data = ethernetFrame st.netif.mac.toList (f.slice 6 6) 0x0800
      (ipv4Packet ((f.byte 19).toNat * 256 + (f.byte 18).toNat) 0x01 st.netif.ip.toList (f.slice 26 4)
        (echoReplyPacket (f.slice 38 (n - 4))))) : EchoReply st.netif f reply := by
  have hbody : (f.slice 38 (n - 4)).length = n - 4 := Frame.slice_length (by omega)
  have hpacket : (echoReplyPacket (f.slice 38 (n - 4))).length = n := by
    rw [echoReplyPacket_length, hbody]
    omega
  have hdst : (f.slice 26 4).length = 4 := Frame.slice_length (by omega)
  rw [← List.append_nil (ethernetFrame _ _ _ _)] at hreply
  obtain ⟨hparts, hlength⟩ := ethernetFrame_parts hreply st.netif.mac.length_toList (Frame.slice_length (by omega))
    st.netif.ip.length_toList hdst
  obtain ⟨hversion, htotal, hflags, hprotocol, hsum⟩ := sentHeader hparts.front hparts.checksum hparts.addresses
    st.netif.ip.length_toList hdst (by omega)
  have hpayload := hparts.payload
  rw [hpacket] at htotal hpayload hlength
  rw [List.length_nil] at hlength
  have hown : icmpMessage reply = echoReplyPacket (f.slice 38 (n - 4)) := by
    rw [icmpMessage, icmpStart, hversion, htotal, ← hpayload]
    exact congrArg (reply.slice 34) (Nat.add_sub_cancel_left (n := 20) (m := n))
  have hzeroed : zeroWord (icmpMessage reply) 2 = [0, 0, 0, 0] ++ f.slice 38 (n - 4) := by rw [hown]; rfl
  have hchecksum : netCalcChecksum ([0, 0, 0, 0] ++ f.slice 38 (n - 4)) =
      rfcChecksum ([0, 0, 0, 0] ++ f.slice 38 (n - 4)) := by
    rw [netCalcChecksum_rfc_iff ?_, oddByte_reply hn hin, hodd]
    rw [List.length_append, hbody]
    simp only [List.length_cons, List.length_nil]
    omega
  constructor
  case mac => exact hparts.mac
  case type => rw [Frame.be16_of_slice (k := 0) hparts.type (by decide : 1 < 2)]; rfl
  case version => exact hversion
  case total => rw [htotal, hmessage, Frame.slice_length hin]
  case fits => omega
  case unfragmented => exact hflags
  case protocol => exact hprotocol
  case checksum => rw [hsum, headerZeroed_checksum (by omega)]
  case source => exact hparts.source
  case destination => exact hparts.destination
  case typeCode =>
    have htake : reply.slice 34 2 = (reply.slice 34 n).take 2 := by
      rw [Frame.slice, Frame.slice, List.take_take, Nat.min_eq_left (by omega)]
    rw [htake, hpayload]
    rfl
  case icmpChecksum =>
    rw [hzeroed, ← hchecksum, Frame.be16_of_slice (k := 2) hpayload (by omega)]
    exact htons_toNat (foldChecksum_lt _)
  case body =>
    rw [hown, hmessage, ← Nat.add_sub_cancel' (show 4 ≤ n by omega), Frame.slice_add,
      List.drop_left' (Frame.slice_length (by omega)), Nat.add_sub_cancel' (show 4 ≤ n by omega)]
    rfl

end Icmp

/-- **ICMP.** An echo request is answered, by one frame with the right reply, exactly if it has no IPv4 options and its
message has even length or ends with a zero byte. -/
theorem icmp_echo_answered_iff (st : NetState) (f : Frame) (h : EchoRequest st.netif f) :
    EchoAnswered st f ↔ (f.byte 14).toNat % 16 = 5 ∧
      ((icmpMessage f).length % 2 = 0 ∨ (icmpMessage f).getLast? = some 0) := by
  have hunsent : ktaskNetBody st f = .ok st → ¬ EchoAnswered st f := by
    rintro hst ⟨reply, hsent, -⟩
    rw [hst, Except.ok.injEq] at hsent
    have hlength := congrArg (fun st => st.sent.length) hsent
    simp at hlength
  rw [← oddByte_eq_zero_iff]
  by_cases hihl : (f.byte 14).toNat % 16 = 5
  swap
  · have hdrop := ktaskNetBody_request h
    rw [if_neg hihl] at hdrop
    exact ⟨fun hans => absurd hans (hunsent hdrop), fun hcond => absurd hcond.1 hihl⟩
  have hbody := h.body
  have hfits := h.fits
  have htotal : f.be16 16 < 0x10000 := Frame.be16_lt
  rw [hihl] at hbody
  obtain ⟨n, hn⟩ : ∃ n, f.be16 16 - 20 = n := ⟨_, rfl⟩
  have hstart : icmpStart f = 34 := by rw [icmpStart, hihl]
  have hmessage : icmpMessage f = f.slice 34 n := by rw [icmpMessage, hstart, hihl, ← hn]
  have hlength : (zeroWord (f.slice 34 n) 2).length = n := by rw [zeroWord_length, Frame.slice_length (by omega)]
  have hfield := h.icmpChecksum
  have hrequest := h.request
  rw [hstart] at hrequest
  rw [hstart, hmessage] at hfield
  have hodd : oddByte (zeroWord (f.slice 34 n) 2) = oddByte (f.slice 34 n) :=
    oddByte_zeroWord rfl (by rw [Frame.slice_length (by omega)]; omega)
  have hbody := ktaskNetBody_request h
  rw [if_pos hihl, hn, netHandleIcmp_request (by omega) (by omega) hrequest, hfield] at hbody
  have htest := netCalcChecksum_rfc_iff (show (zeroWord (f.slice 34 n) 2).length ≤ 65535 by omega)
  rw [hodd] at htest
  rw [hmessage]
  by_cases hzero : oddByte (f.slice 34 n) = 0
  · rw [if_pos (htest.2 hzero).symm, netHandleIcmpEcho_sends (by omega) (by omega)] at hbody
    obtain ⟨reply, hreply⟩ := echoReply_frame st (f := f) (n := n) (by omega) (by omega)
    rw [← hreply] at hbody
    exact ⟨fun _ => ⟨hihl, hzero⟩, fun _ => ⟨reply, hbody,
      echoReply_of_sent (by omega) (by omega) (by omega) hmessage hzero hreply⟩⟩
  · rw [if_neg fun heq => hzero (htest.1 heq.symm)] at hbody
    exact ⟨fun hans => absurd hans (hunsent hbody), fun hcond => absurd hcond.2 hzero⟩

/-- A request from 10.0.0.1 with two bytes of data, in a frame of 64 bytes. -/
def evenEcho : Frame :=
  ⟨List.replicate 12 0 ++ [0x08, 0x00] ++
    [0x45, 0, 0, 30, 0, 0, 0, 0, 64, 1, 0x66, 0xdd, 10, 0, 0, 1, 10, 0, 0, 2] ++
    [8, 0, 0x96, 0x9a, 0, 1, 0, 2, 0x61, 0x62] ++ List.replicate 20 0, by decide⟩

/-- The same with one byte of data. -/
def oddEcho : Frame :=
  ⟨List.replicate 12 0 ++ [0x08, 0x00] ++
    [0x45, 0, 0, 29, 0, 0, 0, 0, 64, 1, 0x66, 0xde, 10, 0, 0, 1, 10, 0, 0, 2] ++
    [8, 0, 0x96, 0xfc, 0, 1, 0, 2, 0x61] ++ List.replicate 21 0, by decide⟩

theorem evenEcho_request : EchoRequest defaultNetif evenEcho := by
  constructor <;> decide +kernel

theorem oddEcho_request : EchoRequest defaultNetif oddEcho := by
  constructor <;> decide +kernel

/-- The request with two bytes is answered. -/
theorem icmp_echo_even : EchoAnswered ⟨defaultNetif, []⟩ evenEcho :=
  (icmp_echo_answered_iff ⟨defaultNetif, []⟩ evenEcho evenEcho_request).2 ⟨by decide +kernel, Or.inl (by decide +kernel)⟩

/-- The request with one byte is dropped. -/
theorem icmp_echo_odd : EchoRequest defaultNetif oddEcho ∧ ¬ EchoAnswered ⟨defaultNetif, []⟩ oddEcho := by
  refine ⟨oddEcho_request, ?_⟩
  rintro ⟨reply, hsent, -⟩
  have hnone : (ktaskNetBody ⟨defaultNetif, []⟩ oddEcho).map (fun st => st.sent.length) = .ok 0 := by decide +kernel
  rw [hsent] at hnone
  cases hnone

end Myunix.Net
