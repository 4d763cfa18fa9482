import Myunix.Net.Accept

/-!
# A packet sent is a packet received

`net_send_ipv4` fills in the fields that `net_handle_ipv4` tests. The frame it hands to `send_packet` is padded to 60
bytes, and the receiver sees four more bytes of frame check behind it; the length in the header, not that of the frame,
says where the data ends. So the handler of the protocol gets the data as it was sent (`ipv4_sent_received`).
-/

namespace Myunix.Net

open Lib

/-! ## Fields of a frame -/

namespace Frame

variable {f : Frame} {i n k : Nat}

/-- The bytes of a field, by what stands before and behind it. -/
theorem slice_field (before behind : List Byte) {field : List Byte} (hdata : f.data = before ++ (field ++ behind))
    (hi : before.length = i) (hn : field.length = n) : f.slice i n = field := by
  subst hi hn
  rw [slice, hdata, List.drop_left, List.take_left]

/-- A byte of a field. -/
theorem byte_of_slice {field : List Byte} (h : f.slice i n = field) (hk : k < field.length) :
    f.byte (i + k) = field.getD k 0 := by
  have hkn : k < n := by
    rw [← h, slice, List.length_take] at hk
    omega
  rw [← h, byte, slice, List.getD_eq_getElem?_getD, List.getD_eq_getElem?_getD, List.getElem?_take_of_lt hkn,
    List.getElem?_drop]

theorem be16_of_slice {field : List Byte} (h : f.slice i n = field) (hk : k + 1 < field.length) :
    f.be16 (i + k) = (field.getD k 0).toNat * 256 + (field.getD (k + 1) 0).toNat := by
  rw [be16, byte_of_slice h (Nat.lt_of_succ_lt hk), Nat.add_assoc, byte_of_slice h hk]

end Frame

/-- `ntohs` takes back what `htons` did. -/
theorem htons_toNat {x : Nat} (h : x < 0x10000) :
    (BitVec.ofNat 8 (x / 256)).toNat * 256 + (BitVec.ofNat 8 x).toNat = x := by
  rw [BitVec.toNat_ofNat, BitVec.toNat_ofNat]
  omega

theorem foldChecksum_lt (v : Nat) : foldChecksum v < 0x10000 := by
  unfold foldChecksum
  dsimp only
  omega

/-! ## The frame that is sent -/

/-- The header up to the checksum, as `net_send_ipv4` fills it in. -/
def ipv4Front (identification protocol size : Nat) : List Byte :=
  [0x45, 0] ++ htons size ++ htons identification ++ [0, 0] ++ [64, BitVec.ofNat 8 protocol]

/-- The checksum that `net_send_ipv4` stores. -/
def sentChecksum (identification protocol : Nat) (srcip dstip data : List Byte) : Nat :=
  netCalcChecksum (ipv4Front identification protocol (20 + data.length) ++ [0, 0] ++ srcip ++ dstip)

/-- The packet that `net_send_ipv4` builds. -/
def ipv4Packet (identification protocol : Nat) (srcip dstip data : List Byte) : List Byte :=
  ipv4Front identification protocol (20 + data.length) ++
    htons (sentChecksum identification protocol srcip dstip data) ++ srcip ++ dstip ++ data

/-- The frame that `net_send_ethernet` builds, with its padding. -/
def ethernetFrame (srcmac dstmac : List Byte) (type : Nat) (data : List Byte) : List Byte :=
  let packet := dstmac ++ srcmac ++ htons type ++ data
  packet ++ List.replicate (60 - packet.length) 0

theorem ethernetFrame_length {srcmac dstmac : List Byte} {type : Nat} {data : List Byte} (hsrcmac : srcmac.length = 6)
    (hdstmac : dstmac.length = 6) :
    (ethernetFrame srcmac dstmac type data).length = 14 + data.length + (60 - (14 + data.length)) := by
  have hpacket : (dstmac ++ srcmac ++ htons type ++ data).length = 14 + data.length := by
    simp only [htons, List.length_append, List.length_cons, List.length_nil, hsrcmac, hdstmac]
  rw [ethernetFrame, List.length_append, List.length_replicate, hpacket]

section Sent

variable {st : NetState} {srcmac dstmac srcip dstip data behind : List Byte} {identification protocol : Nat}

theorem ipv4Packet_length (identification protocol : Nat) (data : List Byte) (hsrc : srcip.length = 4)
    (hdst : dstip.length = 4) :
    (ipv4Packet identification protocol srcip dstip data).length = 20 + data.length := by
  simp only [ipv4Packet, ipv4Front, htons, List.length_append, List.length_cons, List.length_nil, hsrc, hdst]

theorem netSendIpv4_frame (hsrc : srcip.length = 4) (hdst : dstip.length = 4) (hdata : data.length ≠ 0) :
    netSendIpv4 st (some dstmac) identification protocol srcip dstip data = .ok { st with
      sent := st.sent ++ [ethernetFrame st.netif.mac.toList dstmac 0x0800
        (ipv4Packet identification protocol srcip dstip data)] } := by
  have hpacket : (ipv4Packet identification protocol srcip dstip data).length ≠ 0 := by
    rw [ipv4Packet_length _ _ _ hsrc hdst]
    omega
  have hsend : netSendIpv4 st (some dstmac) identification protocol srcip dstip data =
      netSendEthernet st st.netif.mac.toList dstmac 0x0800 (ipv4Packet identification protocol srcip dstip data) := by
    rw [netSendIpv4, assert_bind hdata]
    rfl
  rw [hsend, netSendEthernet, assert_bind hpacket]
  rfl

/-- Without a destination the packet goes to the gateway, once its address is known. -/
theorem netSendIpv4_gateway (hgateway : st.netif.gatewayMacConfigured = true) (hdata : data.length ≠ 0) :
    netSendIpv4 st none identification protocol srcip dstip data =
      netSendIpv4 st (some st.netif.gatewayMac) identification protocol srcip dstip data := by
  rw [netSendIpv4, assert_bind hdata, netSendIpv4, assert_bind hdata]
  exact if_pos hgateway

variable {f : Frame}

/-- The parts of a frame that carries such a packet. -/
structure SentParts (dstmac : List Byte) (identification protocol : Nat) (srcip dstip data : List Byte) (f : Frame) :
    Prop where
  mac : f.slice 0 6 = dstmac
  type : f.slice 12 2 = htons 0x0800
  front : f.slice 14 10 = ipv4Front identification protocol (20 + data.length)
  checksum : f.slice 24 2 = htons (sentChecksum identification protocol srcip dstip data)
  addresses : f.slice 26 8 = srcip ++ dstip
  source : f.slice 26 4 = srcip
  destination : f.slice 30 4 = dstip
  payload : f.slice 34 data.length = data

theorem ethernetFrame_parts
    (hdata : f.data = ethernetFrame srcmac dstmac 0x0800 (ipv4Packet identification protocol srcip dstip data) ++ behind)
    (hsrcmac : srcmac.length = 6) (hdstmac : dstmac.length = 6) (hsrc : srcip.length = 4) (hdst : dstip.length = 4) :
    SentParts dstmac identification protocol srcip dstip data f ∧ 34 + data.length + behind.length ≤ f.length := by
  obtain ⟨pad, hpad⟩ : ∃ pad, ethernetFrame srcmac dstmac 0x0800 (ipv4Packet identification protocol srcip dstip data) =
      dstmac ++ srcmac ++ htons 0x0800 ++ ipv4Packet identification protocol srcip dstip data ++ pad := ⟨_, rfl⟩
  have hfront : (ipv4Front identification protocol (20 + data.length)).length = 10 := rfl
  rw [hpad, ipv4Packet] at hdata
  generalize hf : ipv4Front identification protocol (20 + data.length) = front at hdata hfront
  generalize hs : htons (sentChecksum identification protocol srcip dstip data) = sum at hdata
  generalize ht : htons 0x0800 = type at hdata
  have hsum : sum.length = 2 := by rw [← hs]; rfl
  have htype : type.length = 2 := by rw [← ht]; rfl
  refine ⟨?_, ?_⟩
  · constructor
    · refine Frame.slice_field [] (srcmac ++ type ++ front ++ sum ++ srcip ++ dstip ++ data ++ pad ++ behind)
        ?_ rfl hdstmac
      simp only [hdata, List.append_assoc, List.nil_append]
    · rw [ht]
      refine Frame.slice_field (dstmac ++ srcmac) (front ++ sum ++ srcip ++ dstip ++ data ++ pad ++ behind) ?_ ?_ htype
      · simp only [hdata, List.append_assoc]
      · simp [hdstmac, hsrcmac]
    · rw [hf]
      refine Frame.slice_field (dstmac ++ srcmac ++ type) (sum ++ srcip ++ dstip ++ data ++ pad ++ behind)
        ?_ ?_ hfront
      · simp only [hdata, List.append_assoc]
      · simp [hdstmac, hsrcmac, htype]
    · rw [hs]
      refine Frame.slice_field (dstmac ++ srcmac ++ type ++ front)
        (srcip ++ dstip ++ data ++ pad ++ behind) ?_ ?_ hsum
      · simp only [hdata, List.append_assoc]
      · simp [hdstmac, hsrcmac, htype, hfront]
    · refine Frame.slice_field (dstmac ++ srcmac ++ type ++ front ++ sum) (data ++ pad ++ behind) ?_ ?_ ?_
      · simp only [hdata, List.append_assoc]
      · simp [hdstmac, hsrcmac, htype, hfront, hsum]
      · simp [hsrc, hdst]
    · refine Frame.slice_field (dstmac ++ srcmac ++ type ++ front ++ sum) (dstip ++ data ++ pad ++ behind) ?_ ?_ hsrc
      · simp only [hdata, List.append_assoc]
      · simp [hdstmac, hsrcmac, htype, hfront, hsum]
    · refine Frame.slice_field (dstmac ++ srcmac ++ type ++ front ++ sum ++ srcip)
        (data ++ pad ++ behind) ?_ ?_ hdst
      · simp only [hdata, List.append_assoc]
      · simp [hdstmac, hsrcmac, htype, hfront, hsum, hsrc]
    · refine Frame.slice_field (dstmac ++ srcmac ++ type ++ front ++ sum ++ srcip ++ dstip)
        (pad ++ behind) ?_ ?_ rfl
      · simp only [hdata, List.append_assoc]
      · simp [hdstmac, hsrcmac, htype, hfront, hsum, hsrc, hdst]
  · rw [Frame.length, hdata]
    simp only [List.length_append, hdstmac, hsrcmac, htype, hfront, hsum, hsrc, hdst]
    omega

/-- What the receiver reads where the fields stand. -/
structure SentFields (identification protocol : Nat) (srcip dstip data : List Byte) (f : Frame) : Prop where
  front : f.slice 14 10 = ipv4Front identification protocol (20 + data.length)
  checksum : f.slice 24 2 = htons (sentChecksum identification protocol srcip dstip data)
  addresses : f.slice 26 8 = srcip ++ dstip
  destination : f.slice 30 4 = dstip
  payload : f.slice 34 data.length = data
  length : 38 + data.length ≤ f.length

theorem ethernetFrame_fields
    (hdata : f.data = ethernetFrame srcmac dstmac 0x0800 (ipv4Packet identification protocol srcip dstip data) ++ behind)
    (hsrcmac : srcmac.length = 6) (hdstmac : dstmac.length = 6) (hsrc : srcip.length = 4) (hdst : dstip.length = 4)
    (hbehind : behind.length = 4) : SentFields identification protocol srcip dstip data f := by
  obtain ⟨h, hlength⟩ := ethernetFrame_parts hdata hsrcmac hdstmac hsrc hdst
  exact ⟨h.front, h.checksum, h.addresses, h.destination, h.payload, by omega⟩

/-- The numbers in the header. -/
theorem sentHeader (hfront : f.slice 14 10 = ipv4Front identification protocol (20 + data.length))
    (hfield : f.slice 24 2 = htons (sentChecksum identification protocol srcip dstip data))
    (haddresses : f.slice 26 8 = srcip ++ dstip) (hsrc : srcip.length = 4) (hdst : dstip.length = 4)
    (hle : data.length ≤ 65515) :
    f.byte 14 = 0x45 ∧ f.be16 16 = 20 + data.length ∧ f.be16 20 = 0 ∧ f.byte 23 = BitVec.ofNat 8 protocol ∧
      f.be16 24 = internetChecksum (words (headerZeroed f)) := by
  have hversion : f.byte 14 = 0x45 := Frame.byte_of_slice (k := 0) hfront (by decide : 0 < 10)
  have hprotocol : f.byte 23 = BitVec.ofNat 8 protocol := Frame.byte_of_slice (k := 9) hfront (by decide : 9 < 10)
  have htotal : f.be16 16 = 20 + data.length := by
    have hlt : 20 + data.length < 0x10000 := by omega
    rw [Frame.be16_of_slice (k := 2) hfront (by decide : 3 < 10)]
    exact htons_toNat hlt
  have hflags : f.be16 20 = 0 := by
    rw [Frame.be16_of_slice (k := 6) hfront (by decide : 7 < 10)]
    simp [ipv4Front, htons]
  have hsum : f.be16 24 = sentChecksum identification protocol srcip dstip data := by
    have hlt : sentChecksum identification protocol srcip dstip data < 0x10000 := foldChecksum_lt _
    generalize sentChecksum identification protocol srcip dstip data = sum at hfield hlt ⊢
    rw [Frame.be16_of_slice (k := 0) hfield (by decide : 1 < 2)]
    exact htons_toNat hlt
  have hzeroed : headerZeroed f =
      ipv4Front identification protocol (20 + data.length) ++ [0, 0] ++ srcip ++ dstip := by
    rw [headerZeroed, hfront, haddresses, ← List.append_assoc]
  refine ⟨hversion, htotal, hflags, hprotocol, ?_⟩
  rw [hsum, sentChecksum, hzeroed, netCalcChecksum_eq]
  simp [ipv4Front, htons, hsrc, hdst]

/-- Such a frame passes every check of `net_handle_ipv4`. -/
theorem SentFields.checked {netif : Netif} {t : Ipv4Type}
    (h : SentFields identification t.code.toNat srcip netif.ip.toList data f) (hsrc : srcip.length = 4)
    (hle : data.length ≤ 65515) : Ipv4Checked netif f ∧ f.byte 23 = t.code ∧ f.be16 16 = 20 + data.length := by
  have hlen := h.length
  obtain ⟨hversion, htotal, hflags, hprotocol, hsum⟩ :=
    sentHeader h.front h.checksum h.addresses hsrc netif.ip.length_toList hle
  rw [BitVec.ofNat_toNat, BitVec.setWidth_eq] at hprotocol
  refine ⟨⟨by omega, ?_, ?_, ?_, ?_, ?_, ?_, hsum, h.destination, t, hprotocol⟩, hprotocol, htotal⟩
  · rw [hversion]; rfl
  · rw [hversion]; rfl
  · omega
  · omega
  · rw [hflags]
  · rw [hflags]

end Sent

/-! ## What the receiver does -/

/-- The handler of a protocol. -/
def Ipv4Type.handler : Ipv4Type → NetState → Frame → Nat → Kernel NetState
  | .icmp => netHandleIcmp
  | .tcp => netHandleTcp
  | .udp => netHandleUdp

theorem Ipv4Type.code_injective {t u : Ipv4Type} (h : t.code = u.code) : t = u := by
  cases t <;> cases u <;> first | rfl | (revert h; decide)

/-- **Sending and receiving agree.** The frame that `net_send_ipv4` hands to `send_packet`, with the four bytes of frame
check behind it, is accepted by the interface it is addressed to, and the handler of its protocol is called with the
data that was sent. -/
theorem ipv4_sent_received (sender receiver : NetState) (dstmac : Vector Byte 6) (identification : BitVec 16)
    (t : Ipv4Type) (srcip : Vector Byte 4) (data : List Byte) (crc : Vector Byte 4) (hpos : 1 ≤ data.length)
    (hle : data.length ≤ 65515) :
    ∃ packet, netSendIpv4 sender (some dstmac.toList) identification.toNat t.code.toNat srcip.toList
        receiver.netif.ip.toList data = .ok { sender with sent := sender.sent ++ [packet] } ∧
      ∃ f : Frame, f.data = packet ++ crc.toList ∧
        ipv4Accept receiver.netif f = .ok (some (t, data.length)) ∧
        netHandleIpv4 receiver f = t.handler receiver f data.length ∧ f.slice 34 data.length = data := by
  refine ⟨_, netSendIpv4_frame srcip.length_toList receiver.netif.ip.length_toList (by omega), ?_⟩
  have hpacket := ipv4Packet_length identification.toNat t.code.toNat data
    srcip.length_toList receiver.netif.ip.length_toList
  obtain ⟨f, hf⟩ : ∃ f : Frame, f.data = ethernetFrame sender.netif.mac.toList dstmac.toList 0x0800
      (ipv4Packet identification.toNat t.code.toNat srcip.toList receiver.netif.ip.toList data) ++ crc.toList := by
    refine ⟨⟨_, ?_⟩, rfl⟩
    rw [List.length_append, ethernetFrame_length sender.netif.mac.length_toList dstmac.length_toList, hpacket,
      crc.length_toList]
    omega
  have hfields := ethernetFrame_fields hf sender.netif.mac.length_toList dstmac.length_toList srcip.length_toList
    receiver.netif.ip.length_toList crc.length_toList
  obtain ⟨hchecked, hprotocol, htotal⟩ := hfields.checked srcip.length_toList hle
  have haccept : ipv4Accept receiver.netif f = .ok (some (t, data.length)) := by
    rcases ipv4Accept_cases receiver.netif f with ⟨-, u, hu, heq⟩ | ⟨hno, -⟩
    · have hut : u = t := Ipv4Type.code_injective (hu.symm.trans hprotocol)
      rw [heq, hut, htotal, Nat.add_sub_cancel_left]
    · exact absurd hchecked hno
  refine ⟨f, hf, haccept, ?_, hfields.payload⟩
  rw [netHandleIpv4, haccept, ok_bind]
  cases t with
  | icmp => rfl
  | tcp => rfl
  | udp => rfl

/-- A datagram of two bytes from 10.0.0.1, padded to 60 bytes. -/
theorem ipv4_sent_received_short : ∃ packet, netSendIpv4 ⟨defaultNetif, []⟩ (some [2, 0, 0, 0, 0, 2]) 7 17
      [10, 0, 0, 1] [10, 0, 0, 2] [0xAB, 0xCD] = .ok ⟨defaultNetif, [packet]⟩ ∧ packet.length = 60 ∧
    ∃ f : Frame, f.data = packet ++ [1, 2, 3, 4] ∧ ipv4Accept defaultNetif f = .ok (some (.udp, 2)) ∧
      f.slice 34 2 = [0xAB, 0xCD] := by
  obtain ⟨packet, hsent, f, hf, haccept, -, hdata⟩ := ipv4_sent_received ⟨defaultNetif, []⟩ ⟨defaultNetif, []⟩
    #v[2, 0, 0, 0, 0, 2] 7 .udp #v[10, 0, 0, 1] [0xAB, 0xCD] #v[1, 2, 3, 4] (by decide) (by decide)
  have hlength : (netSendIpv4 ⟨defaultNetif, []⟩ (some [2, 0, 0, 0, 0, 2]) 7 17 [10, 0, 0, 1] [10, 0, 0, 2]
      [0xAB, 0xCD]).map (fun st => st.sent.map List.length) = .ok [60] := rfl
  rw [show netSendIpv4 ⟨defaultNetif, []⟩ (some [2, 0, 0, 0, 0, 2]) 7 17 [10, 0, 0, 1] [10, 0, 0, 2] [0xAB, 0xCD] =
    .ok ⟨defaultNetif, [packet]⟩ from hsent] at hlength
  exact ⟨packet, hsent, List.head_eq_of_cons_eq (Except.ok.inj hlength), f, hf, haccept, hdata⟩

end Myunix.Net
