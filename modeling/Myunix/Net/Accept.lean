import Myunix.Net.Handle
import Myunix.Lib.OnesComplement

/-!
# Which IPv4 packets are delivered

A packet should be delivered if its header is one the kernel understands, its lengths fit the frame, it is not a
fragment, its checksum is right and it is addressed to the interface (`Ipv4Deliverable`). `net_handle_ipv4` computes
the fragment offset and does not look at it; the masks it tests the flags with are swapped but both are tested. So it
delivers exactly the packets that meet the remaining conditions (`ipv4Accept_cases`), and errs on the last fragments of
packets (`ipv4_delivers_unless_fragment`).
-/

namespace Myunix.Net

open Lib

/-! ## The internet checksum -/

/-- The 16-bit words of a buffer in network order. -/
def words : List Byte → List Nat
  | hi :: lo :: bytes => (hi.toNat * 256 + lo.toNat) :: words bytes
  | [_] => []
  | [] => []

/-- The checksum of RFC 1071: the complement of the one's complement sum. -/
def internetChecksum (ws : List Nat) : Nat := 0xFFFF - onesSum 0xFFFF ws

theorem words_le {bytes : List Byte} : ∀ x ∈ words bytes, x ≤ 0xFFFF := by
  fun_induction words bytes with
  | case1 hi lo bytes ih =>
    intro x hx
    rcases List.mem_cons.1 hx with rfl | hx
    · have := hi.isLt
      have := lo.isLt
      omega
    · exact ih x hx
  | case2 b => simp
  | case3 => simp

theorem words_sum_le (bytes : List Byte) : (words bytes).sum ≤ bytes.length / 2 * 0xFFFF := by
  fun_induction words bytes with
  | case1 hi lo bytes ih =>
    have := hi.isLt
    have := lo.isLt
    simp only [List.sum_cons, List.length_cons]
    omega
  | case2 b => simp
  | case3 => simp

/-- The loop adds up the words while the sum fits in 32 bits. -/
theorem addWords_eq (bytes : List Byte) (v : Nat) (h : v + (words bytes).sum < 0x100000000) :
    addWords bytes v = v + (words bytes).sum := by
  fun_induction words bytes generalizing v with
  | case1 hi lo bytes ih =>
    simp only [List.sum_cons] at h ⊢
    have hmod : (v + (hi.toNat * 256 + lo.toNat)) % 0x100000000 = v + (hi.toNat * 256 + lo.toNat) :=
      Nat.mod_eq_of_lt (Nat.lt_of_le_of_lt (Nat.add_le_add_left (Nat.le_add_right _ _) v) h)
    rw [addWords, hmod, ih (v + (hi.toNat * 256 + lo.toNat)) (by rw [Nat.add_assoc]; exact h)]
    exact Nat.add_assoc _ _ _
  | case2 b => rfl
  | case3 => rfl

/-- Two folding steps leave a 16-bit number with the same residue that is 0 only for 0. -/
theorem foldChecksum_fold {s : Nat} (hs : s < 0x100000000) :
    ∃ v ≤ 0xFFFF, foldChecksum s = 0xFFFF - v ∧ v % 0xFFFF = s % 0xFFFF ∧ (v = 0 ↔ s = 0) := by
  obtain ⟨hi, lo, hhi, hlo, rfl⟩ : ∃ hi lo, hi < 0x10000 ∧ lo < 0x10000 ∧ s = hi * 0x10000 + lo :=
    ⟨s / 0x10000, s % 0x10000, by omega, by omega, by omega⟩
  have hfold : foldChecksum (hi * 0x10000 + lo) =
      0xFFFF - (hi + lo + (hi + lo) / 0x10000 % 0x10000) % 0x10000 := by
    unfold foldChecksum
    dsimp only
    rw [show (hi * 0x10000 + lo) / 0x10000 % 0x10000 = hi by omega,
      show (hi * 0x10000 + lo) % 0x10000 = lo by omega]
  have hmod : (hi * 0x10000 + lo) % 0xFFFF = (hi + lo) % 0xFFFF := by
    rw [show hi * 0x10000 + lo = hi + lo + hi * 0xFFFF by omega, Nat.add_mul_mod_self_right]
  rw [hfold, hmod]
  by_cases hc : hi + lo < 0x10000
  · rw [show (hi + lo + (hi + lo) / 0x10000 % 0x10000) % 0x10000 = hi + lo by omega]
    exact ⟨hi + lo, by omega, rfl, rfl, by omega⟩
  · rw [show (hi + lo + (hi + lo) / 0x10000 % 0x10000) % 0x10000 = hi + lo - 0xFFFF by omega]
    exact ⟨hi + lo - 0xFFFF, by omega, rfl, (Nat.mod_eq_sub_mod (by omega)).symm, by omega⟩

/-- Folding the carries twice gives the one's complement sum. -/
theorem foldChecksum_eq (ws : List Nat) (hle : ∀ x ∈ ws, x ≤ 0xFFFF) (hsum : ws.sum < 0x100000000) :
    foldChecksum ws.sum = internetChecksum ws := by
  obtain ⟨v, hv, heq, hmod, hzero⟩ := foldChecksum_fold hsum
  rw [heq, internetChecksum, onesSum_unique hle hv hmod hzero]

/-- **`net_calc_checksum`** computes the internet checksum of every buffer of up to 128 KiB. -/
theorem netCalcChecksum_eq (bytes : List Byte) (h : bytes.length ≤ 0x20000) :
    netCalcChecksum bytes = internetChecksum (words bytes) := by
  have hsum : (words bytes).sum < 0x100000000 := by
    have := words_sum_le bytes
    omega
  rw [netCalcChecksum, addWords_eq bytes 0 (by omega), Nat.zero_add, foldChecksum_eq _ words_le hsum]

/-! ## The packets to deliver -/

/-- The protocol numbers (`enum ipv4_type`). -/
def Ipv4Type.code : Ipv4Type → Byte
  | .icmp => 0x01
  | .tcp => 0x06
  | .udp => 0x11

/-- The header of the frame with the checksum field taken as zero. -/
def headerZeroed (f : Frame) : List Byte := f.slice 14 10 ++ [0, 0] ++ f.slice 26 8

/-- The conditions on a packet, the fragment offset apart. -/
structure Ipv4Checked (netif : Netif) (f : Frame) : Prop where
  length : 34 ≤ f.length
  version : (f.byte 14).toNat / 16 = 4
  ihl : (f.byte 14).toNat % 16 = 5
  total : 20 ≤ f.be16 16
  fits : f.be16 16 + 18 ≤ f.length
  reserved : f.be16 20 / 0x8000 = 0
  moreFragments : f.be16 20 / 0x2000 % 2 = 0
  checksum : f.be16 24 = internetChecksum (words (headerZeroed f))
  destination : f.slice 30 4 = netif.ip.toList
  protocol : ∃ t : Ipv4Type, f.byte 23 = t.code

/-- The offset of a fragment, in units of 8 bytes. -/
def fragmentOffset (f : Frame) : Nat := f.be16 20 % 0x2000

/-- The packets to deliver: those that are not fragments. -/
def Ipv4Deliverable (netif : Netif) (f : Frame) : Prop := Ipv4Checked netif f ∧ fragmentOffset f = 0

section Accept

variable {netif : Netif} {f : Frame}

theorem ipv4CalculateChecksum_eq (h : 34 ≤ f.length) :
    ipv4CalculateChecksum f = .ok (internetChecksum (words (headerZeroed f))) := by
  obtain ⟨g, hg, hlen, hdata⟩ := Frame.write16_ok (i := 24) 0 0 (show 24 + 1 < f.length by omega)
  have hslice : g.slice 14 20 = headerZeroed f := by
    have hfront : g.slice 14 10 = f.slice 14 10 := Frame.slice_write16 hdata (Or.inl (by omega))
    have hfield : g.slice 24 2 = [0, 0] := Frame.slice_written hdata (by omega)
    have hback : g.slice 26 8 = f.slice 26 8 := Frame.slice_write16 hdata (Or.inr (by omega))
    rw [show (20 : Nat) = 10 + (2 + 8) from rfl, Frame.slice_add, Frame.slice_add, hfront, hfield, hback,
      headerZeroed, List.append_assoc]
  have hbytes : (headerZeroed f).length = 20 := by rw [← hslice, Frame.slice_length (by omega)]
  rw [ipv4CalculateChecksum, hg, ok_bind, Frame.read_ok (by omega), ok_bind, hslice,
    netCalcChecksum_eq _ (by omega)]
  rfl

theorem ihl_iff (b : Byte) : b &&& 0x0F = 5 ↔ b.toNat % 16 = 5 := by
  revert b
  decide

theorem version_iff (b : Byte) : (b &&& 0xF0) >>> 4 = 4 ↔ b.toNat / 16 = 4 := by
  revert b
  decide

/-- The flag called reserved in the code is the more-fragments flag. -/
theorem flag_low_iff (n : Nat) : n / 0x2000 &&& 0x1 = 0 ↔ n / 0x2000 % 2 = 0 := by
  rw [Nat.and_one_is_mod]

/-- The flag called fragmented in the code is the reserved flag. -/
theorem flag_high_iff {n : Nat} (h : n < 0x10000) : n / 0x2000 &&& 0x4 = 0 ↔ n / 0x8000 = 0 := by
  have hsmall : ∀ m < 8, m &&& 0x4 = 0 ↔ m / 4 = 0 := by decide
  rw [hsmall _ (by omega)]
  omega

/-- The destination test. -/
theorem memcmp_ip (ip : Vector Byte 4) {a : List Byte} (ha : a.length = 4) :
    ∃ r, memcmp a ip.toList 4 = .ok r ∧ (r = 0 ↔ a = ip.toList) := by
  have h := memcmp_buffers a ip.toList (by rw [ha, Vector.length_toList])
  rwa [ha] at h

/-- **What `net_handle_ipv4` does**: a checked packet goes to the handler of its protocol with its data length, every
other frame is dropped. -/
theorem ipv4Accept_cases (netif : Netif) (f : Frame) :
    (Ipv4Checked netif f ∧ ∃ t : Ipv4Type, f.byte 23 = t.code ∧
      ipv4Accept netif f = .ok (some (t, f.be16 16 - 20))) ∨
    (¬ Ipv4Checked netif f ∧ ipv4Accept netif f = .ok none) := by
  unfold ipv4Accept
  by_cases hlen : 34 ≤ f.length
  swap
  · exact Or.inr ⟨fun h => hlen h.length, if_pos (by omega)⟩
  rw [if_neg (by omega), Frame.u8_ok (by omega), ok_bind]
  by_cases hihl : f.byte 14 &&& 0x0F = 5
  swap
  · exact Or.inr ⟨fun h => hihl ((ihl_iff _).2 h.ihl), if_pos hihl⟩
  rw [if_neg (not_not.2 hihl)]
  by_cases hver : (f.byte 14 &&& 0xF0) >>> 4 = 4
  swap
  · exact Or.inr ⟨fun h => hver ((version_iff _).2 h.version), if_pos hver⟩
  rw [if_neg (not_not.2 hver), Frame.ntohs_ok (by omega), ok_bind]
  by_cases htotal : 20 ≤ f.be16 16
  swap
  · exact Or.inr ⟨fun h => htotal h.total, if_pos (by omega)⟩
  rw [if_neg (by omega)]
  by_cases hfits : f.be16 16 + 18 ≤ f.length
  swap
  · exact Or.inr ⟨fun h => hfits h.fits, if_pos (by omega)⟩
  rw [if_neg (by omega), Frame.ntohs_ok (by omega), ok_bind]
  by_cases hmf : f.be16 20 / 0x2000 &&& 0x1 = 0
  swap
  · exact Or.inr ⟨fun h => hmf ((flag_low_iff _).2 h.moreFragments), if_pos hmf⟩
  by_cases hres : f.be16 20 / 0x2000 &&& 0x4 = 0
  swap
  · refine Or.inr ⟨fun h => hres ((flag_high_iff Frame.be16_lt).2 h.reserved), ?_⟩
    exact (if_neg (not_not.2 hmf)).trans (if_pos hres)
  dsimp only
  rw [if_neg (not_not.2 hmf), if_neg (not_not.2 hres), ipv4CalculateChecksum_eq hlen, ok_bind,
    Frame.ntohs_ok (by omega), ok_bind]
  by_cases hsum : internetChecksum (words (headerZeroed f)) = f.be16 24
  swap
  · exact Or.inr ⟨fun h => hsum h.checksum.symm, if_pos hsum⟩
  obtain ⟨r, hr, hdst⟩ := memcmp_ip netif.ip (Frame.slice_length (f := f) (i := 30) (n := 4) (by omega))
  rw [if_neg (not_not.2 hsum), Frame.read_ok (by omega), ok_bind, hr, ok_bind]
  by_cases hr0 : r = 0
  swap
  · exact Or.inr ⟨fun h => hr0 (hdst.2 h.destination), if_neg hr0⟩
  have hchecked : (∃ t : Ipv4Type, f.byte 23 = t.code) → Ipv4Checked netif f := fun hp =>
    ⟨hlen, (version_iff _).1 hver, (ihl_iff _).1 hihl, htotal, hfits, (flag_high_iff Frame.be16_lt).1 hres,
      (flag_low_iff _).1 hmf, hsum.symm, hdst.1 hr0, hp⟩
  rw [if_pos hr0, Frame.u8_ok (by omega), ok_bind]
  by_cases hicmp : f.byte 23 = 0x01
  · exact Or.inl ⟨hchecked ⟨.icmp, hicmp⟩, .icmp, hicmp, if_pos hicmp⟩
  by_cases htcp : f.byte 23 = 0x06
  · exact Or.inl ⟨hchecked ⟨.tcp, htcp⟩, .tcp, htcp, (if_neg hicmp).trans (if_pos htcp)⟩
  by_cases hudp : f.byte 23 = 0x11
  · exact Or.inl ⟨hchecked ⟨.udp, hudp⟩, .udp, hudp, (if_neg hicmp).trans ((if_neg htcp).trans (if_pos hudp))⟩
  refine Or.inr ⟨fun h => ?_, (if_neg hicmp).trans ((if_neg htcp).trans (if_neg hudp))⟩
  obtain ⟨t, ht⟩ := h.protocol
  cases t with
  | icmp => exact hicmp ht
  | tcp => exact htcp ht
  | udp => exact hudp ht

end Accept

/-- **Delivery.** `net_handle_ipv4` delivers exactly the packets it should, each to the handler of its protocol and with
its data length, for all frames but the fragments that pass every other check. -/
theorem ipv4_delivers_unless_fragment (netif : Netif) (f : Frame) :
    (((∃ t n, ipv4Accept netif f = .ok (some (t, n))) ↔ Ipv4Deliverable netif f) ∧
      ∀ t n, ipv4Accept netif f = .ok (some (t, n)) → f.byte 23 = t.code ∧ n = f.be16 16 - 20) ↔
    ¬ (Ipv4Checked netif f ∧ fragmentOffset f ≠ 0) := by
  rcases ipv4Accept_cases netif f with ⟨hc, t, ht, heq⟩ | ⟨hc, heq⟩
  · have hpass : ∀ t' n, ipv4Accept netif f = .ok (some (t', n)) → f.byte 23 = t'.code ∧ n = f.be16 16 - 20 := by
      intro t' n h
      rw [heq, Except.ok.injEq, Option.some.injEq, Prod.mk.injEq] at h
      obtain ⟨rfl, rfl⟩ := h
      exact ⟨ht, rfl⟩
    constructor
    · rintro ⟨hiff, -⟩ ⟨-, hne⟩
      exact hne (hiff.1 ⟨t, _, heq⟩).2
    · intro hno
      have h0 : fragmentOffset f = 0 := by
        by_contra hne
        exact hno ⟨hc, hne⟩
      exact ⟨⟨fun _ => ⟨hc, h0⟩, fun _ => ⟨t, _, heq⟩⟩, hpass⟩
  · have hnone : ∀ t n, ipv4Accept netif f ≠ .ok (some (t, n)) := by
      intro t n h
      rw [heq] at h
      cases h
    constructor
    · rintro - ⟨hc', -⟩
      exact hc hc'
    · intro _
      refine ⟨⟨fun ⟨t, n, h⟩ => absurd h (hnone t n), fun h => absurd h.1 hc⟩, fun t n h => absurd h (hnone t n)⟩

/-- The interface as `net_register_netif` sets it up. -/
def defaultNetif : Netif := ⟨#v[10, 0, 0, 2], #v[2, 0, 0, 0, 0, 1], #v[10, 20, 0, 1], [0, 0, 0, 0, 0, 0], false⟩

/-- The last fragment, at offset 8, of an ICMP packet from 10.0.0.1 with 8 bytes of data. -/
def lastFragment : Frame :=
  ⟨List.replicate 12 0 ++ [0x08, 0x00] ++
    [0x45, 0, 0, 28, 0, 0, 0, 1, 64, 1, 0x66, 0xde, 10, 0, 0, 1, 10, 0, 0, 2] ++ List.replicate 26 0, by decide⟩

/-- The fragment is delivered like a whole packet. -/
theorem ipv4_delivers_fragment :
    ipv4Accept defaultNetif lastFragment = .ok (some (.icmp, 8)) ∧ ¬ Ipv4Deliverable defaultNetif lastFragment :=
  ⟨by decide +kernel, fun h => absurd h.2 (by decide +kernel)⟩

end Myunix.Net
