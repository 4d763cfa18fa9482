import Myunix.Net.Reads

/-!
# The length check of a TCP segment (`net/tcp.c`)

The data of a segment starts at `data_offset` and has `data_length = ipv4_data_length - data_offset` bytes. The code
compares the sum of the two with `ipv4_data_length`; in 32-bit arithmetic the sum is `ipv4_data_length` again, so the
comparison rejects nothing (`tcp_size_eq`). A segment whose header is said to be longer than the segment gets to the
checksum (`tcp_header_sound_iff`).
-/

namespace Myunix.Net

open Lib

/-- Where `net_handle_tcp` returns. -/
inductive TcpVerdict
  | tooShort
  | offsetTooSmall
  | offsetTooLarge
  | tooLong
  | reservedSet
  | badChecksum
  | accepted (dataOffset dataLength : Nat)
deriving DecidableEq, Repr

/-- `net_handle_tcp` up to the place where it returns. -/
def tcpVerdict (f : Frame) (ipv4DataLength : Nat) : Kernel TcpVerdict := do
  if ipv4DataLength < 20 then return .tooShort
  else
    let _ ← f.read 34 12
    let flags ← f.ntohs 46
    let dataOffset := flags / 0x1000 % 16 * 4
    let dataLength := (ipv4DataLength + 0x100000000 - dataOffset) % 0x100000000
    if dataOffset < 20 then return .offsetTooSmall
    else if dataOffset > 60 then return .offsetTooLarge
    else
      let size := (dataOffset + dataLength) % 0x100000000
      if size > ipv4DataLength then return .tooLong
      else if flags / 0x200 % 8 ≠ 0 then return .reservedSet
      else
        let _ ← f.ntohs 48
        let checksumReceived ← f.ntohs 50
        let checksumCalculated ← tcpCalcChecksum f size
        if checksumReceived ≠ checksumCalculated then return .badChecksum
        else
          let _ ← f.ntohs 52
          return .accepted dataOffset dataLength

/-- The segments that get past the header checks: those whose checksum is computed. -/
def TcpVerdict.PastHeader : TcpVerdict → Prop
  | .badChecksum => True
  | .accepted _ _ => True
  | _ => False

/-- The length of the header in bytes, as the upper four bits of its field for offset and flags say. -/
def tcpDataOffset (f : Frame) : Nat := f.be16 46 / 0x1000 % 16 * 4

/-- Past the header checks the header lies inside the segment, and the data length of an accepted segment is what is
left of it. -/
def TcpHeaderSound (f : Frame) (n : Nat) : Prop :=
  ∀ v, tcpVerdict f n = .ok v →
    (v.PastHeader → 20 ≤ tcpDataOffset f ∧ tcpDataOffset f ≤ 60 ∧ tcpDataOffset f ≤ n) ∧
    ∀ dataOffset dataLength, v = .accepted dataOffset dataLength →
      dataOffset = tcpDataOffset f ∧ dataOffset + dataLength = n

section Verdict

variable {f : Frame} {n : Nat}

/-- The handler does nothing else. -/
theorem netHandleTcp_eq (st : NetState) (f : Frame) (n : Nat) :
    netHandleTcp st f n = tcpVerdict f n >>= fun _ => .ok st := by
  unfold netHandleTcp tcpVerdict
  split
  · rfl
  simp only [bind_assoc]
  refine bind_congr fun _ => bind_congr fun flags => ?_
  split
  · rfl
  split
  · rfl
  split
  · rfl
  split
  · rfl
  simp only [bind_assoc]
  refine bind_congr fun _ => bind_congr fun _ => bind_congr fun _ => ?_
  split
  · rfl
  simp only [bind_assoc]
  rfl

/-- What was subtracted is added again. -/
theorem tcp_size_eq {offset : Nat} (hn : n < 0x100000000) (hoffset : offset ≤ 60) :
    (offset + (n + 0x100000000 - offset) % 0x100000000) % 0x100000000 = n := by omega

/-- A segment with at least 20 bytes, at least 20 bytes of header and no reserved bit set gets past the header checks. -/
theorem tcpVerdict_past (h : 34 + n ≤ f.length) (hn : 20 ≤ n) (hoffset : 20 ≤ tcpDataOffset f)
    (hreserved : f.be16 46 / 0x200 % 8 = 0) :
    tcpVerdict f n = .ok .badChecksum ∨
      tcpVerdict f n = .ok (.accepted (tcpDataOffset f) ((n + 0x100000000 - tcpDataOffset f) % 0x100000000)) := by
  have hfits : f.length < 0x100000000 := f.fits
  have hle : tcpDataOffset f ≤ 60 := by
    unfold tcpDataOffset
    omega
  obtain ⟨c, hc⟩ := tcpCalcChecksum_ok (f := f) hn h
  unfold tcpVerdict
  rw [if_neg (by omega), Frame.read_ok (by omega), ok_bind, Frame.ntohs_ok (by omega), ok_bind]
  dsimp only
  rw [← tcpDataOffset, if_neg (by omega), if_neg (by omega), tcp_size_eq (by omega) hle, if_neg (by omega),
    if_neg (by omega), Frame.ntohs_ok (by omega), ok_bind, Frame.ntohs_ok (by omega), ok_bind, hc, ok_bind]
  split
  · exact Or.inl rfl
  · rw [Frame.ntohs_ok (by omega), ok_bind]
    exact Or.inr rfl

/-- The other segments do not. -/
theorem tcpVerdict_dropped (h : 34 + n ≤ f.length)
    (hno : n < 20 ∨ tcpDataOffset f < 20 ∨ f.be16 46 / 0x200 % 8 ≠ 0) :
    ∃ v, tcpVerdict f n = .ok v ∧ ¬ v.PastHeader := by
  have hfits : f.length < 0x100000000 := f.fits
  have hle : tcpDataOffset f ≤ 60 := by
    unfold tcpDataOffset
    omega
  unfold tcpVerdict
  by_cases hn : n < 20
  · rw [if_pos hn]
    exact ⟨_, rfl, id⟩
  rw [if_neg hn, Frame.read_ok (by omega), ok_bind, Frame.ntohs_ok (by omega), ok_bind]
  dsimp only
  rw [← tcpDataOffset]
  by_cases hoffset : tcpDataOffset f < 20
  · rw [if_pos hoffset]
    exact ⟨_, rfl, id⟩
  rw [if_neg hoffset, if_neg (by omega), tcp_size_eq (by omega) hle, if_neg (by omega), if_pos (by omega)]
  exact ⟨_, rfl, id⟩

end Verdict

/-- **Header checks.** The header of every segment that passes them lies inside the segment, and the data length does
not wrap around, exactly if the segment is dropped for another reason or its data offset is not above its length. -/
theorem tcp_header_sound_iff (f : Frame) (n : Nat) (h : 34 + n ≤ f.length) :
    TcpHeaderSound f n ↔
      n < 20 ∨ tcpDataOffset f < 20 ∨ f.be16 46 / 0x200 % 8 ≠ 0 ∨ tcpDataOffset f ≤ n := by
  have hfits : f.length < 0x100000000 := f.fits
  have hle : tcpDataOffset f ≤ 60 := by
    unfold tcpDataOffset
    omega
  by_cases hdropped : n < 20 ∨ tcpDataOffset f < 20 ∨ f.be16 46 / 0x200 % 8 ≠ 0
  · obtain ⟨v, hv, hpast⟩ := tcpVerdict_dropped h hdropped
    refine ⟨fun _ => by omega, fun _ w hw => ?_⟩
    rw [hv, Except.ok.injEq] at hw
    subst hw
    refine ⟨fun hp => absurd hp hpast, fun dataOffset dataLength haccepted => ?_⟩
    rw [haccepted] at hpast
    exact absurd trivial hpast
  have hverdict := tcpVerdict_past h (by omega) (by omega) (by omega)
  constructor
  · intro hsound
    rcases hverdict with hv | hv
    · exact Or.inr (Or.inr (Or.inr ((hsound _ hv).1 trivial).2.2))
    · exact Or.inr (Or.inr (Or.inr ((hsound _ hv).1 trivial).2.2))
  · intro hcond v hv
    refine ⟨fun _ => ⟨by omega, hle, by omega⟩, fun dataOffset dataLength haccepted => ?_⟩
    subst haccepted
    rcases hverdict with hv' | hv'
    · rw [hv] at hv'
      cases hv'
    · rw [hv, Except.ok.injEq, TcpVerdict.accepted.injEq] at hv'
      obtain ⟨rfl, rfl⟩ := hv'
      exact ⟨rfl, by omega⟩

/-- A segment of 20 bytes from 10.0.0.1 that says its header has 24, in a frame of 64 bytes. -/
def shortTcp : Frame :=
  ⟨List.replicate 12 0 ++ [0x08, 0x00] ++
    [0x45, 0, 0, 40, 0, 0, 0, 0, 64, 0x06, 0x66, 0xce, 10, 0, 0, 1, 10, 0, 0, 2] ++
    [0x04, 0xd2, 0x10, 0xe1, 0, 0, 0, 1, 0, 0, 0, 0, 0x60, 0x02, 0x20, 0, 0x56, 0x2c, 0, 0] ++ List.replicate 10 0,
    by decide⟩

/-- The segment is delivered and accepted with a data length of 2³² - 4. -/
theorem tcp_header_short :
    ipv4Accept defaultNetif shortTcp = .ok (some (.tcp, 20)) ∧
      tcpVerdict shortTcp 20 = .ok (.accepted 24 0xFFFFFFFC) ∧ ¬ TcpHeaderSound shortTcp 20 := by
  have hverdict : tcpVerdict shortTcp 20 = .ok (.accepted 24 0xFFFFFFFC) := by decide +kernel
  refine ⟨by decide +kernel, hverdict, fun hsound => ?_⟩
  exact absurd ((hsound _ hverdict).1 trivial).2.2 (by decide +kernel)

/-- The same frame with the segment taken to be 24 bytes long. -/
theorem tcp_header_sound_padded : TcpHeaderSound shortTcp 24 :=
  (tcp_header_sound_iff shortTcp 24 (by decide +kernel)).2 (Or.inr (Or.inr (Or.inr (by decide +kernel))))

end Myunix.Net
