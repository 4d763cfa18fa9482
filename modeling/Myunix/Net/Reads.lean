import Myunix.Net.Accept

/-!
# Reads inside the received frame

Every handler checks a length before it reads. `net_handle_arp` checks that of an IPv4 header, which is 8 bytes shorter
than an ARP packet; `net_handle_udp` takes the length field of the datagram as it is, both for the loop that prints the
data (which starts at 2^32 for a length below 8) and for the echo, which copies as many bytes as that field says from
behind the header. ICMP and TCP stay inside the IPv4 packet, and that inside the frame.

`ReadsInside` names the frames on which this goes well; `net_reads_inside_iff` says that it is exact.
-/

namespace Myunix.Net

open Lib

/-! ## Sending -/

section Send

variable (st : NetState) {data : List Byte}

theorem netSendEthernet_ok (srcmac dstmac : List Byte) (type : Nat) (h : data.length ≠ 0) :
    ∃ st', netSendEthernet st srcmac dstmac type data = .ok st' :=
  ⟨_, by rw [netSendEthernet, assert_bind h]; rfl⟩

theorem netSendIpv4_ok (dstmac : Option (List Byte)) (identification protocol : Nat) (srcip dstip : List Byte)
    (h : data.length ≠ 0) : ∃ st', netSendIpv4 st dstmac identification protocol srcip dstip data = .ok st' := by
  rw [netSendIpv4, assert_bind h]
  cases dstmac with
  | some dstmac =>
    apply netSendEthernet_ok
    simp
  | none =>
    dsimp only
    split
    · apply netSendEthernet_ok
      simp
    · exact ⟨st, rfl⟩

theorem netSendUdp_ok (dstip : List Byte) (srcport dstport : Nat) (h : data.length ≠ 0) :
    ∃ st', netSendUdp st dstip srcport dstport data = .ok st' := by
  rw [netSendUdp, assert_bind h]
  apply netSendIpv4_ok
  simp [htons]

theorem netSendArp_ok (srcmac dstmac : List Byte) (opcode : Nat) (srchw srcpr dsthw dstpr : List Byte) :
    ∃ st', netSendArp st srcmac dstmac opcode srchw srcpr dsthw dstpr = .ok st' := by
  apply netSendEthernet_ok
  simp [htons]

end Send

/-! ## ICMP and TCP -/

section Inside

variable {st : NetState} {f : Frame} {n : Nat}

theorem netHandleIcmpEcho_ok (h : 38 + n ≤ f.length) : ∃ st', netHandleIcmpEcho st f n = .ok st' := by
  unfold netHandleIcmpEcho
  by_cases hn : n < 4
  · exact ⟨st, if_pos hn⟩
  · rw [if_neg hn, Frame.read_ok (by omega), ok_bind, Frame.read_ok (by omega), ok_bind, Frame.read_ok (by omega),
      ok_bind, Frame.read_ok (by omega), ok_bind, Frame.u8_ok (by omega), ok_bind, Frame.u8_ok (by omega), ok_bind,
      Frame.read_ok (by omega), ok_bind]
    apply netSendIpv4_ok
    simp

theorem netHandleIcmp_ok (h : 34 + n ≤ f.length) : ∃ st', netHandleIcmp st f n = .ok st' := by
  unfold netHandleIcmp
  by_cases hn : n < 4
  · exact ⟨st, if_pos hn⟩
  · obtain ⟨g, hg, hlen, -⟩ := Frame.write16_ok (i := 36) 0 0 (show 36 + 1 < f.length by omega)
    rw [if_neg hn, Frame.ntohs_ok (by omega), ok_bind, hg, ok_bind, Frame.read_ok (by omega), ok_bind]
    split
    · exact ⟨st, rfl⟩
    · rw [Frame.u8_ok (by omega), ok_bind]
      split
      · exact netHandleIcmpEcho_ok (by omega)
      · exact ⟨st, rfl⟩

theorem tcpCalcChecksum_ok (hn : 20 ≤ n) (h : 34 + n ≤ f.length) : ∃ c, tcpCalcChecksum f n = .ok c := by
  have hsrc := Frame.slice_length (f := f) (i := 26) (n := 4) (by omega)
  have hdst := Frame.slice_length (f := f) (i := 30) (n := 4) (by omega)
  rw [tcpCalcChecksum, Frame.read_ok (by omega), ok_bind, Frame.read_ok (by omega), ok_bind,
    Frame.ntohs_ok (by omega), ok_bind, Frame.read_ok (by omega), ok_bind, netCalcChecksum2,
    assert_bind (by simp [htons, hsrc, hdst])]
  exact ⟨_, rfl⟩

theorem netHandleTcp_ok (hn : n < 0x100000000) (h : 34 + n ≤ f.length) : ∃ st', netHandleTcp st f n = .ok st' := by
  unfold netHandleTcp
  by_cases hn20 : n < 20
  · exact ⟨st, if_pos hn20⟩
  · rw [if_neg hn20, Frame.read_ok (by omega), ok_bind, Frame.ntohs_ok (by omega), ok_bind]
    dsimp only
    split
    · exact ⟨st, rfl⟩
    split
    · exact ⟨st, rfl⟩
    -- the data length wraps if the data offset is beyond the packet; the sum does not
    have hsize : (f.be16 46 / 0x1000 % 16 * 4 + (n + 0x100000000 - f.be16 46 / 0x1000 % 16 * 4) % 0x100000000) %
        0x100000000 = n := by omega
    rw [hsize]
    split
    · exact ⟨st, rfl⟩
    split
    · exact ⟨st, rfl⟩
    obtain ⟨c, hc⟩ := tcpCalcChecksum_ok (f := f) (show 20 ≤ n by omega) h
    rw [Frame.ntohs_ok (by omega), ok_bind, Frame.ntohs_ok (by omega), ok_bind, hc, ok_bind]
    split
    · exact ⟨st, rfl⟩
    · rw [Frame.ntohs_ok (by omega), ok_bind]
      exact ⟨st, rfl⟩

/-! ## UDP -/

theorem udpPrint_ok {i : Nat} (h : 42 + i + n ≤ f.length) : forRange (udpPrintBody f) i n ⟨⟩ = .ok ⟨⟩ := by
  apply forRange_idle
  intro j _ hj'
  rw [udpPrintBody, Frame.u8_ok (by omega), ok_bind]
  rfl

theorem udpPrint_error {i : Nat} (h : f.length < 42 + i + n) (hn : 0 < n) :
    forRange (udpPrintBody f) i n ⟨⟩ = .error .bounds := by
  induction n generalizing i with
  | zero => omega
  | succ n ih =>
    rw [forRange_succ]
    by_cases hi : 42 + i < f.length
    · rw [udpPrintBody, Frame.u8_ok hi, ok_bind]
      exact ih (by omega) (by omega)
    · rw [udpPrintBody, Frame.u8_error (by omega)]
      rfl

/-- The length field of a datagram covers its header, and as many bytes as it says are there behind the header. -/
def UdpInside (f : Frame) : Prop := 8 ≤ f.be16 38 ∧ 42 + f.be16 38 ≤ f.length

/-- A datagram is echoed inside the frame or read behind its end. -/
theorem netHandleUdp_eq (st : NetState) (h : 34 + n ≤ f.length) (hn : 8 ≤ n) :
    (UdpInside f ∧ ∃ st', netHandleUdp st f n = .ok st') ∨
      (¬ UdpInside f ∧ netHandleUdp st f n = .error .bounds) := by
  have hlt : f.be16 38 < 0x10000 := Frame.be16_lt
  have hfits : f.length < 0x100000000 := f.fits
  unfold netHandleUdp
  rw [if_neg (by omega), Frame.ntohs_ok (by omega), ok_bind, Frame.ntohs_ok (by omega), ok_bind,
    Frame.ntohs_ok (by omega), ok_bind, Frame.ntohs_ok (by omega), ok_bind]
  by_cases hlen : 8 ≤ f.be16 38
  · rw [show (f.be16 38 + 0x100000000 - 8) % 0x100000000 = f.be16 38 - 8 by omega]
    by_cases hin : 42 + f.be16 38 ≤ f.length
    · refine Or.inl ⟨⟨hlen, hin⟩, ?_⟩
      rw [udpPrint_ok (by omega), ok_bind, Frame.read_ok (by omega), ok_bind, Frame.read_ok hin, ok_bind]
      apply netSendUdp_ok
      rw [Frame.slice_length hin]
      omega
    · refine Or.inr ⟨fun hu => hin hu.2, ?_⟩
      by_cases hloop : 42 + (f.be16 38 - 8) ≤ f.length
      · rw [udpPrint_ok (by omega), ok_bind, Frame.read_ok (by omega), ok_bind,
          Frame.read_error (by omega) (by omega), error_bind]
      · rw [udpPrint_error (by omega) (by omega), error_bind]
  · -- the count of the loop wraps
    refine Or.inr ⟨fun hu => hlen hu.1, ?_⟩
    rw [udpPrint_error (by omega) (by omega), error_bind]

/-! ## ARP -/

/-- A frame whose addresses `net_handle_arp` looks at: a request or a reply for IPv4 over Ethernet, with the bytes of an
IPv4 header. -/
structure ArpSeen (f : Frame) : Prop where
  length : 34 ≤ f.length
  hwtype : f.be16 14 = 1
  ptype : f.be16 16 = 0x0800
  hlen : f.byte 18 = 6
  plen : f.byte 19 = 4
  opcode : f.be16 20 = 1 ∨ f.be16 20 = 2

/-- The addresses of a whole ARP packet are read. -/
theorem arpAddresses_ok {α : Type} {k : List Byte → List Byte → List Byte → List Byte → Kernel α}
    (h : 42 ≤ f.length) :
    (do let srchw ← f.read 22 6; let srcpr ← f.read 28 4; let dsthw ← f.read 32 6; let dstpr ← f.read 38 4
        k srchw srcpr dsthw dstpr) = k (f.slice 22 6) (f.slice 28 4) (f.slice 32 6) (f.slice 38 4) := by
  rw [Frame.read_ok (by omega), ok_bind, Frame.read_ok (by omega), ok_bind, Frame.read_ok (by omega), ok_bind,
    Frame.read_ok (by omega), ok_bind]

/-- The addresses of a shorter one are not all there. -/
theorem arpAddresses_error {α : Type} {k : List Byte → List Byte → List Byte → List Byte → Kernel α}
    (h : 34 ≤ f.length) (hshort : f.length < 42) :
    (do let srchw ← f.read 22 6; let srcpr ← f.read 28 4; let dsthw ← f.read 32 6; let dstpr ← f.read 38 4
        k srchw srcpr dsthw dstpr) = .error .bounds := by
  rw [Frame.read_ok (by omega), ok_bind, Frame.read_ok (by omega), ok_bind]
  by_cases hd : 38 ≤ f.length
  · rw [Frame.read_ok (by omega), ok_bind, Frame.read_error (by omega) (by omega), error_bind]
  · rw [Frame.read_error (by omega) (by omega), error_bind]

theorem textBytes_length (s : String) : (textBytes s).length ≠ 0 := by
  simp [textBytes]

theorem netHandleArp_eq (st : NetState) (f : Frame) :
    (¬ (ArpSeen f ∧ f.length < 42) ∧ ∃ st', netHandleArp st f = .ok st') ∨
      ((ArpSeen f ∧ f.length < 42) ∧ netHandleArp st f = .error .bounds) := by
  unfold netHandleArp
  by_cases hlen : 34 ≤ f.length
  swap
  · exact Or.inl ⟨fun h => hlen h.1.length, st, if_pos (by omega)⟩
  rw [if_neg (by omega), Frame.ntohs_ok (by omega), ok_bind]
  by_cases hhw : f.be16 14 = 1
  swap
  · exact Or.inl ⟨fun h => hhw h.1.hwtype, st, if_pos hhw⟩
  rw [if_neg (not_not.2 hhw), Frame.ntohs_ok (by omega), ok_bind]
  by_cases hpt : f.be16 16 = 0x0800
  swap
  · exact Or.inl ⟨fun h => hpt h.1.ptype, st, if_pos hpt⟩
  rw [if_neg (not_not.2 hpt), Frame.u8_ok (by omega), ok_bind]
  by_cases hhl : f.byte 18 = 6
  swap
  · exact Or.inl ⟨fun h => hhl h.1.hlen, st, if_pos hhl⟩
  rw [if_neg (not_not.2 hhl), Frame.u8_ok (by omega), ok_bind]
  by_cases hpl : f.byte 19 = 4
  swap
  · exact Or.inl ⟨fun h => hpl h.1.plen, st, if_pos hpl⟩
  rw [if_neg (not_not.2 hpl), Frame.ntohs_ok (by omega), ok_bind]
  by_cases hop : f.be16 20 = 1 ∨ f.be16 20 = 2
  swap
  · refine Or.inl ⟨fun h => hop h.1.opcode, st, ?_⟩
    rw [if_neg fun h => hop (Or.inl h), if_neg fun h => hop (Or.inr h)]
    rfl
  by_cases hshort : f.length < 42
  · refine Or.inr ⟨⟨⟨hlen, hhw, hpt, hhl, hpl, hop⟩, hshort⟩, ?_⟩
    by_cases hreq : f.be16 20 = 1
    · rw [if_pos hreq]
      exact arpAddresses_error hlen hshort
    · rw [if_neg hreq, if_pos (hop.resolve_left hreq)]
      exact arpAddresses_error hlen hshort
  · refine Or.inl ⟨fun h => hshort h.2, ?_⟩
    by_cases hreq : f.be16 20 = 1
    · obtain ⟨r, hr, -⟩ := memcmp_buffers st.netif.ip.toList (f.slice 38 4)
        (by rw [Vector.length_toList, Frame.slice_length (by omega)])
      rw [Vector.length_toList] at hr
      rw [if_pos hreq, arpAddresses_ok (by omega), hr, ok_bind]
      split
      · rw [Frame.read_ok (by omega), ok_bind]
        apply netSendArp_ok
      · exact ⟨st, rfl⟩
    · obtain ⟨r, hr, -⟩ := memcmp_ip st.netif.gateway (Frame.slice_length (f := f) (i := 28) (n := 4) (by omega))
      rw [if_neg hreq, if_pos (hop.resolve_left hreq), arpAddresses_ok (by omega), hr, ok_bind]
      split
      · exact netSendUdp_ok _ _ _ _ (textBytes_length _)
      · exact ⟨st, rfl⟩

end Inside

/-! ## The dispatcher -/

/-- The frames that are read inside their length: an ARP request or reply has the 28 bytes of an ARP packet, and the
length field of a UDP datagram that reaches its handler covers the header and no more than what follows the header. -/
def ReadsInside (netif : Netif) (f : Frame) : Prop :=
  ¬ (f.be16 12 = 0x0806 ∧ ArpSeen f ∧ f.length < 42) ∧
    ¬ (f.be16 12 = 0x0800 ∧ Ipv4Checked netif f ∧ f.byte 23 = Ipv4Type.udp.code ∧ 28 ≤ f.be16 16 ∧ ¬ UdpInside f)

theorem netHandleIpv4_eq (st : NetState) (f : Frame) :
    (¬ (Ipv4Checked st.netif f ∧ f.byte 23 = Ipv4Type.udp.code ∧ 28 ≤ f.be16 16 ∧ ¬ UdpInside f) ∧
      ∃ st', netHandleIpv4 st f = .ok st') ∨
    ((Ipv4Checked st.netif f ∧ f.byte 23 = Ipv4Type.udp.code ∧ 28 ≤ f.be16 16 ∧ ¬ UdpInside f) ∧
      netHandleIpv4 st f = .error .bounds) := by
  unfold netHandleIpv4
  rcases ipv4Accept_cases st.netif f with ⟨hc, t, ht, heq⟩ | ⟨hc, heq⟩
  · have htotal := hc.total
    have hfits := hc.fits
    rw [heq, ok_bind]
    cases t with
    | icmp => exact Or.inl ⟨fun h => by rw [ht] at h; exact absurd h.2.1 (by decide), netHandleIcmp_ok (by omega)⟩
    | tcp =>
      have hlt : f.be16 16 < 0x10000 := Frame.be16_lt
      exact Or.inl ⟨fun h => by rw [ht] at h; exact absurd h.2.1 (by decide), netHandleTcp_ok (by omega) (by omega)⟩
    | udp =>
      by_cases hn : 28 ≤ f.be16 16
      · rcases netHandleUdp_eq st (f := f) (n := f.be16 16 - 20) (by omega) (by omega) with h | h
        · exact Or.inl ⟨fun hno => hno.2.2.2 h.1, h.2⟩
        · exact Or.inr ⟨⟨hc, ht, hn, h.1⟩, h.2⟩
      · refine Or.inl ⟨fun h => hn h.2.2.1, st, ?_⟩
        exact if_pos (by omega)
  · rw [heq, ok_bind]
    exact Or.inl ⟨fun h => hc h.1, st, rfl⟩

/-- One frame: all reads are inside and the round ends, or one is not. -/
theorem ktaskNetBody_eq (st : NetState) (f : Frame) :
    (ReadsInside st.netif f ∧ ∃ st', ktaskNetBody st f = .ok st') ∨
      (¬ ReadsInside st.netif f ∧ ktaskNetBody st f = .error .bounds) := by
  unfold ktaskNetBody
  by_cases hlen : 14 ≤ f.length
  swap
  · exact Or.inl ⟨⟨fun h => hlen (by have := h.2.1.length; omega), fun h => hlen (by have := h.2.1.length; omega)⟩,
      st, if_pos (by omega)⟩
  rw [if_neg (by omega), Frame.ntohs_ok (by omega), ok_bind]
  by_cases harp : f.be16 12 = 0x0806
  · rw [if_pos harp]
    rcases netHandleArp_eq st f with h | h
    · exact Or.inl ⟨⟨fun hno => h.1 hno.2, fun hno => by rw [harp] at hno; exact absurd hno.1 (by decide)⟩, h.2⟩
    · exact Or.inr ⟨fun hin => hin.1 ⟨harp, h.1⟩, h.2⟩
  rw [if_neg harp]
  by_cases hip : f.be16 12 = 0x0800
  · rw [if_pos hip]
    rcases netHandleIpv4_eq st f with h | h
    · exact Or.inl ⟨⟨fun hno => harp hno.1, fun hno => h.1 hno.2⟩, h.2⟩
    · exact Or.inr ⟨fun hin => hin.2 ⟨hip, h.1⟩, h.2⟩
  rw [if_neg hip]
  exact Or.inl ⟨⟨fun hno => harp hno.1, fun hno => hip hno.1⟩, st, rfl⟩

/-- **Reads.** Whatever the frame and its length, the dispatcher and the handlers it calls read inside the frame, and
come to an end, exactly if `ReadsInside` holds. -/
theorem net_reads_inside_iff (st : NetState) (f : Frame) :
    (ktaskNetBody st f ≠ .error .bounds ↔ ReadsInside st.netif f) ∧
      (ReadsInside st.netif f → ∃ st', ktaskNetBody st f = .ok st') := by
  rcases ktaskNetBody_eq st f with ⟨hin, st', hst⟩ | ⟨hout, herr⟩
  · exact ⟨⟨fun _ => hin, fun _ => by rw [hst]; simp⟩, fun _ => ⟨st', hst⟩⟩
  · exact ⟨⟨fun h => absurd herr h, fun h => absurd h hout⟩, fun h => absurd h hout⟩

/-- A UDP datagram of 8 bytes from 10.0.0.1, in a frame of 60 bytes, that says it has 1000. -/
def longUdp : Frame :=
  ⟨List.replicate 12 0 ++ [0x08, 0x00] ++
    [0x45, 0, 0, 28, 0, 0, 0, 0, 64, 0x11, 0x66, 0xcf, 10, 0, 0, 1, 10, 0, 0, 2] ++
    [0x04, 0xd2, 0x10, 0xe1, 0x03, 0xe8, 0, 0] ++ List.replicate 18 0, by decide⟩

/-- The bytes behind the frame are printed. -/
theorem net_reads_behind_long_udp : ktaskNetBody ⟨defaultNetif, []⟩ longUdp = .error .bounds := by
  have hudp : ¬ UdpInside longUdp := fun h => absurd h.2 (by decide +kernel)
  have hchecked : Ipv4Checked defaultNetif longUdp :=
    ⟨by decide +kernel, by decide +kernel, by decide +kernel, by decide +kernel, by decide +kernel, by decide +kernel,
      by decide +kernel, by decide +kernel, by decide +kernel, .udp, by decide +kernel⟩
  rcases ktaskNetBody_eq ⟨defaultNetif, []⟩ longUdp with ⟨h, -⟩ | ⟨-, h⟩
  · exact absurd ⟨by decide +kernel, hchecked, by decide +kernel, by decide +kernel, hudp⟩ h.2
  · exact h

end Myunix.Net
